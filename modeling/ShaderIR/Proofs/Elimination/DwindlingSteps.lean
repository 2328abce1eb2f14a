import Mathlib.Data.List.TakeWhile
import ShaderIR.Proofs.Elimination.Dwindling

/-!
# Steps of dwindling

Taking instructions out, neutralizing a block, dropping merge blocks and incomings, and
replacing a phi by a value that comes to it: with each of these steps a program dwindles.
-/

namespace ShaderIR

namespace Store

variable {store left : Store} {ref block : Ref}

/-- Instructions keep their opcodes and operands, and only unreachable ends are new. -/
theorem dwindles_of_kept
    (coherent : store.Coherent)
    (coherent' : left.Coherent)
    (regular : store.Regular → left.Regular)
    (ages : store.Ages left)
    (opcode : ∀ {ref}, (store.value? ref).isSome → left.opcode? ref = store.opcode? ref)
    (operands : ∀ {ref}, (store.value? ref).isSome → left.operands ref = store.operands ref)
    (linked : ∀ {ref block}, (store.value? ref).isSome → left.blockOf? ref = some block →
      store.blockOf? ref = some block)
    (added : ∀ {ref entry}, store.value? ref = none → left.instruction? ref = some entry →
      ∃ block, entry = deadEnd block)
    (deadEnds : ∀ block, left.deadEnds block = store.deadEnds block ∨
      store.deadEnds block = [] ∧ (left.deadEnds block).length = 1) :
    store.Dwindles left where
  coherent := coherent'
  regular := regular
  ages := ages
  kind := fun present => congrArg _ (opcode present)
  linked := linked
  added := by
    intro ref found absent opcode'
    obtain ⟨entry, held, rfl⟩ := Option.map_eq_some_iff.1 opcode'
    obtain ⟨block, rfl⟩ := added absent held
    rfl
  deadEnds := deadEnds
  supplied := by
    rintro ref user ⟨isLinked, operand, placed⟩
    have userPresent : (store.value? user).isSome := by
      by_contra absent
      obtain ⟨entry, found, slot, member, -⟩ := some_mem_operands_iff.1 operand
      obtain ⟨block, rfl⟩ := added (Option.not_isSome_iff_eq_none.1 absent) found
      cases member
    rw [operands userPresent] at operand
    have present := coherent.value?_isSome_of_operand operand
    obtain ⟨block, isLinked⟩ := Option.isSome_iff_exists.1 isLinked
    refine .single ⟨Option.isSome_of_eq_some (linked userPresent isLinked), operand, ?_⟩
    refine placed.imp (fun isBlock => (ages.isBlock ref).symm.trans isBlock) fun isInstruction => ?_
    obtain ⟨opcode', found⟩ := opcode?_of_isInstruction isInstruction
    exact isInstruction_of_opcode? ((opcode present).symm.trans found)
  stable := by
    intro user position operand _ _ atPosition
    have isInstruction := isInstruction_of_mem_operands (List.mem_of_getElem? atPosition)
    rwa [operands (value?_isSome_of_isInstruction isInstruction)]
  settled := fun isInstruction _ _ => operands (value?_isSome_of_isInstruction isInstruction)

theorem deadEnds_congr
    (instructions : left.instructions block = store.instructions block)
    (isDeadEnd : ∀ ref ∈ store.instructions block, left.isDeadEnd ref = store.isDeadEnd ref) :
    left.deadEnds block = store.deadEnds block := by
  unfold deadEnds
  rw [instructions]
  exact List.filter_congr isDeadEnd

/-- Other instructions than unreachable ends are taken out. -/
theorem Takes.dwindles
    {gone : List Ref}
    (takes : store.Takes gone left)
    (coherent : store.Coherent)
    (coherent' : left.Coherent)
    (others : ∀ ref ∈ gone, store.isDeadEnd ref = false) :
    store.Dwindles left := by
  refine dwindles_of_kept coherent coherent'
    (fun regular => (takes.trims coherent').regular regular)
    takes.ages (fun _ => takes.opcode? _) (fun _ => takes.operands _)
    (fun _ linked => (takes.blockOf?_eq_some_iff.1 linked).1) ?_ fun block => .inl ?_
  · intro ref entry absent found
    rw [takes.instruction?] at found
    simp [Store.instruction?, content?, absent] at found
  · have isDeadEnd : left.isDeadEnd = store.isDeadEnd := by
      funext ref
      rw [Store.isDeadEnd, Store.isDeadEnd, takes.opcode?]
    rw [deadEnds, deadEnds, takes.instructions, isDeadEnd, List.filter_filter]
    refine List.filter_congr fun ref _ => ?_
    by_cases taken : ref ∈ gone
    · simp [others ref taken]
    · simp [taken]

theorem Neutralizes.instruction?_old
    (neutralizes : store.Neutralizes block left)
    (present : (store.value? ref).isSome) :
    left.instruction? ref = store.instruction? ref ∨
      left.instruction? ref = (store.instruction? ref).map fun entry =>
        { entry with block := none } := by
  by_cases inside : store.blockOf? ref = some block
  · cases isEnd : store.isDeadEnd ref with
    | true => exact .inl (neutralizes.kept isEnd)
    | false => exact .inr (neutralizes.taken inside isEnd)
  · exact .inl (neutralizes.elsewhere present inside)

theorem Neutralizes.dwindles
    (neutralizes : store.Neutralizes block left)
    (coherent : store.Coherent)
    (coherent' : left.Coherent) :
    store.Dwindles left := by
  have opcode : ∀ {ref}, (store.value? ref).isSome → left.opcode? ref = store.opcode? ref := by
    intro ref present
    rcases neutralizes.instruction?_old present with same | same <;>
      simp [Store.opcode?, same, Function.comp_def]
  have regular : store.Regular → left.Regular := by
    refine fun regular => regular.of_ages neutralizes.ages (fun {ref} isVariable => ?_)
      fun member => .inl (undefinedsOf_of_modules (neutralizes.undefineds _) ▸ member)
    by_cases present : (store.value? ref).isSome
    · rwa [isLocalVariable_iff, opcode present, ← isLocalVariable_iff] at isVariable
    · obtain ⟨entry, found, isVariable⟩ :=
        Option.map_eq_some_iff.1 (isLocalVariable_iff.1 isVariable)
      cases neutralizes.added (Option.not_isSome_iff_eq_none.1 present) found
      cases isVariable
  refine dwindles_of_kept coherent coherent' regular neutralizes.ages opcode ?_ ?_
    (fun absent found => ⟨block, neutralizes.added absent found⟩) fun other => ?_
  · intro ref present
    rcases neutralizes.instruction?_old present with same | same
    · rw [operands, operands, same]
    · rw [operands, operands, same, Option.map_map]
      rfl
  · intro ref other present linked
    rcases neutralizes.instruction?_old present with same | same
    · rwa [blockOf?, same] at linked
    · rw [blockOf?, same] at linked
      cases found : store.instruction? ref <;> simp [found] at linked
  · have isDeadEnd : ∀ {ref}, ref ∈ store.instructions other →
        left.isDeadEnd ref = store.isDeadEnd ref := by
      intro ref member
      have linked := (coherent.mem_members other ref).1 member
      rw [Store.isDeadEnd, Store.isDeadEnd,
        opcode (value?_isSome_of_blockOf? (Option.isSome_of_eq_some linked))]
    by_cases same : other = block
    · subst same
      rcases neutralizes.instructions with kept | ⟨none, new, absent, only, isEnd⟩
      · refine .inl ?_
        rw [deadEnds, deadEnds, kept]
        refine List.filter_eq_self.2 fun ref member => ?_
        obtain ⟨member, isEnd⟩ := List.mem_filter.1 member
        rw [isDeadEnd member, isEnd]
      · refine .inr ⟨none, ?_⟩
        have isEnd : left.isDeadEnd new = true := by
          simp [Store.isDeadEnd, Store.opcode?, isEnd, deadEnd, Opcode.isUnreachable]
        rw [deadEnds, only, List.filter_cons_of_pos isEnd]
        rfl
    · exact .inl (deadEnds_congr (neutralizes.instructions_elsewhere same)
        fun ref member => isDeadEnd member)

/-- Merge blocks and incomings are dropped. -/
theorem Tidies.dwindles
    (tidies : store.Tidies left)
    (coherent : store.Coherent)
    (regular : store.Regular → left.Regular) :
    store.Dwindles left := by
  have same : ∀ {ref}, store.isPhi ref = false → left.operands ref = store.operands ref := by
    intro ref notPhi
    unfold operands
    cases found : store.instruction? ref with
    | none => rw [tidies.absent found]
    | some entry =>
        obtain ⟨entry', found', tidied⟩ := tidies.entry found
        have notPhi : entry.opcode.isPhi = false := by
          simpa [Store.isPhi, opcode?, found] using notPhi
        simp [found', Instruction.values, tidied.operands_of_not_phi notPhi]
  have fewer : ∀ {value user}, some value ∈ left.operands user →
      some value ∈ store.operands user := by
    intro value user operand
    obtain ⟨entry', found', slot, member, holds⟩ := some_mem_operands_iff.1 operand
    cases found : store.instruction? user with
    | none => cases (tidies.absent found).symm.trans found'
    | some entry =>
        obtain ⟨_, found'', tidied⟩ := tidies.entry found
        cases found'.symm.trans found''
        exact some_mem_operands_iff.2 ⟨entry, found, slot, tidied.operands.subset member, holds⟩
  have isInstruction : ∀ ref, left.isInstruction ref = store.isInstruction ref := by
    intro ref
    unfold Store.isInstruction
    cases found : store.instruction? ref with
    | none => rw [tidies.absent found]
    | some entry =>
        obtain ⟨_, found', -⟩ := tidies.entry found
        rw [found']
        rfl
  exact
    { coherent := tidies.coherent coherent
      regular := regular
      ages := tidies.ages
      kind := by
        intro ref _
        unfold kind? Store.opcode?
        cases found : store.instruction? ref with
        | none => rw [tidies.absent found]
        | some entry =>
            obtain ⟨entry', found', tidied⟩ := tidies.entry found
            simp [found', tidied.kind]
      linked := fun _ linked => (tidies.blockOf? _).symm.trans linked
      added := by
        intro ref opcode absent found
        have present := value?_isSome_of_isInstruction
          ((isInstruction ref).symm.trans (isInstruction_of_opcode? found))
        simp [absent] at present
      deadEnds := fun block => .inl <| deadEnds_congr (tidies.instructions block) fun ref _ =>
        tidies.any_opcode? Instruction.Tidied.isUnreachable ref
      supplied := by
        rintro ref user ⟨linked, operand, placed⟩
        rw [tidies.blockOf?] at linked
        rw [tidies.ages.isBlock, isInstruction] at placed
        exact .single ⟨linked, fewer operand, placed⟩
      stable := fun notPhi _ atPosition => same notPhi ▸ atPosition
      settled := fun _ notPhi _ => same notPhi }

theorem Interns.dwindles
    (interns : store.Interns left)
    (coherent : store.Coherent)
    (coherent' : left.Coherent) :
    store.Dwindles left := by
  have trims := (interns.repoints coherent').trims
  refine dwindles_of_kept coherent coherent' trims.regular interns.ages (fun _ => interns.opcode? _)
    (fun _ => interns.operands _) trims.linked ?_ fun block => .inl ?_
  · intro ref entry absent found
    rw [interns.instruction?] at found
    simp [Store.instruction?, content?, absent] at found
  · refine deadEnds_congr (interns.instructions block) fun ref _ => ?_
    rw [Store.isDeadEnd, Store.isDeadEnd, interns.opcode?]

/-- The users of a phi take what comes to the phi itself, or what is no part of the code. -/
theorem Coherent.dwindles_replaceUses
    (coherent : store.Coherent)
    {phi value : Ref}
    {answer : Unit}
    (isPhi : store.isPhi phi = true)
    (incoming : store.Feeds value phi ∨
      store.isBlock value = false ∧ store.isInstruction value = false)
    (gives : Edit.Gives (Edit.replaceUses phi (some value)) store answer left) :
    store.Dwindles left := by
  have repoints := coherent.repoints_replaceUses gives
  have rewrites := coherent.rewrites_replaceUses gives
  have opcode : ∀ ref, left.opcode? ref = store.opcode? ref := by
    intro ref
    unfold Store.opcode?
    rw [rewrites.instruction?, Option.map_map]
    refine congrArg (Option.map · _) (funext fun entry => ?_)
    unfold Instruction.redirected
    dsimp only [Function.comp_apply]
    split <;> rfl
  have isInstruction : ∀ ref, left.isInstruction ref = store.isInstruction ref := by
    intro ref
    unfold Store.isInstruction
    rw [rewrites.instruction?, Option.isSome_map]
  exact
    { coherent := repoints.trims.coherent
      regular := repoints.trims.regular
      ages := repoints.trims.ages
      kind := fun _ => congrArg _ (opcode _)
      linked := repoints.trims.linked
      added := by
        intro ref opcode' absent found
        have present := value?_isSome_of_opcode? ((opcode ref).symm.trans found)
        simp [absent] at present
      deadEnds := fun block => .inl <| deadEnds_congr (repoints.instructions block) fun ref _ => by
        rw [Store.isDeadEnd, Store.isDeadEnd, opcode]
      supplied := by
        rintro ref user ⟨linked, operand, placed⟩
        rw [repoints.blockOf?] at linked
        rw [repoints.trims.ages.isBlock, isInstruction] at placed
        rw [repoints.operands, if_pos linked, List.mem_map] at operand
        obtain ⟨former, member, becomes⟩ := operand
        unfold replaced at becomes
        split at becomes
        · rename_i wasPhi
          subst wasPhi
          obtain rfl := Option.some.inj becomes
          have throughPhi : store.Feeds phi user := by
            obtain ⟨opcode', found, -⟩ := (Option.any_eq_true _ _).1 isPhi
            exact ⟨linked, member, .inr (isInstruction_of_opcode? found)⟩
          rcases incoming with feeds | ⟨notBlock, notInstruction⟩
          · exact .tail (.single feeds) throughPhi
          · simp [notBlock, notInstruction] at placed
        · subst becomes
          exact .single ⟨linked, member, placed⟩
      stable := by
        intro user position operand _ plain atPosition
        rw [repoints.operands]
        split
        · rw [List.getElem?_map, atPosition, Option.map_some, replaced, if_neg]
          rintro rfl
          simp [isPhi] at plain
        · exact atPosition
      settled := by
        intro ref _ _ unlinked
        rw [repoints.operands, if_neg (by simp [unlinked])] }

end Store

namespace Pass

open Store Edit

variable {store left : Store} {phi value : Ref}

/-! ## Tidying up -/

theorem clearMerge_regulates (block : Ref) : Respects Regulates (clearMerge block) := by
  refine Respects.bind (Respects.see _) fun found => ?_
  cases found with
  | none => exact Respects.pure ()
  | some terminator =>
      refine Respects.bind (Respects.instruction terminator) fun entry => ?_
      dsimp only
      split
      · rename_i set
        refine Respects.bind (Respects.see _) fun _ =>
          Respects.ifThen (setOpcode_regulates terminator fun same => ?_) (Respects.pure ())
        rw [Opcode.eq_of_withMerge same] at set
        cases set
      · exact Respects.pure ()

theorem clearMerges_regulates (blocks : List Ref) : Respects Regulates (clearMerges blocks) := by
  induction blocks with
  | nil => exact Respects.pure ()
  | cons block rest induction =>
      exact Respects.bind (clearMerge_regulates block) fun _ => induction

theorem pruneIncomings_regulates (sources : List Ref) (phi : Ref) (bound : Nat) :
    Respects Regulates (pruneIncomings sources phi bound) := by
  induction bound with
  | zero => exact Respects.pure ()
  | succ position induction =>
      refine Respects.bind (Respects.operand phi position) fun _ =>
        Respects.bind (Respects.instruction phi) fun _ =>
          Respects.bind (Respects.demand _) fun _ => Respects.ifThen ?_ induction
      exact Respects.bind (removeIncoming_regulates phi position) fun _ => induction

theorem pruneBlocks_regulates (blocks : List Ref) : Respects Regulates (pruneBlocks blocks) := by
  have each : ∀ sources phis, Respects Regulates (prunePhis sources phis) := by
    intro sources phis
    induction phis with
    | nil => exact Respects.pure ()
    | cons phi rest induction =>
        exact Respects.bind (Respects.instruction phi) fun _ =>
          Respects.bind (pruneIncomings_regulates sources phi _) fun _ => induction
  induction blocks with
  | nil => exact Respects.pure []
  | cons block rest induction =>
      exact Respects.bind (Respects.see _) fun phis => Respects.bind (Respects.see _) fun sources =>
        Respects.bind (each sources phis) fun _ =>
          Respects.bind induction fun _ => Respects.pure _

theorem dwindles_clearMerges
    (coherent : store.Coherent)
    {blocks : List Ref}
    {answer : Unit}
    (gives : Gives (clearMerges blocks) store answer left) :
    store.Tidies left ∧ store.Dwindles left := by
  have tidies := (tidies_clearMerges gives).1
  refine ⟨tidies, tidies.dwindles coherent fun regular => ?_⟩
  exact ((clearMerges_regulates blocks).of_gives gives regular).1

theorem dwindles_pruneBlocks
    (coherent : store.Coherent)
    {blocks phis : List Ref}
    (gives : Gives (pruneBlocks blocks) store phis left) :
    store.Tidies left ∧ store.Dwindles left ∧ ∀ phi ∈ phis, store.isPhi phi = true := by
  obtain ⟨tidies, rfl, -⟩ := fed_pruneBlocks coherent gives
  refine ⟨tidies, tidies.dwindles coherent fun regular => ?_, fun phi member => ?_⟩
  · exact ((pruneBlocks_regulates blocks).of_gives gives regular).1
  · obtain ⟨block, -, member⟩ := List.mem_flatMap.1 member
    exact List.mem_takeWhile_imp member

/-! ## Removing a redundant phi -/

theorem Merged.mem_of_foldlM
    {incomings : List (Option Ref)}
    {merged merged' : Merged}
    (found : incomings.foldlM (Merged.add store phi) merged = some merged')
    (holds : merged'.value = some value) :
    merged.value = some value ∨ some value ∈ incomings ∧ value ≠ phi := by
  induction incomings generalizing merged with
  | nil =>
      cases found
      exact .inl holds
  | cons incoming rest induction =>
      rw [List.foldlM_cons] at found
      obtain ⟨next, added, found⟩ := Option.bind_eq_some_iff.1 found
      rcases induction found with taken | ⟨member, different⟩
      · unfold Merged.add at added
        split at added
        · cases added
          exact .inl taken
        · rename_i different
          have new (same : incoming = some value) :
              some value ∈ incoming :: rest ∧ value ≠ phi :=
            ⟨same ▸ List.mem_cons_self, fun equal => different (equal ▸ same)⟩
          split at added
          · cases added
            rcases Option.or_eq_some_iff.1 taken with taken | ⟨-, taken⟩
            · exact .inl taken
            · exact .inr (new taken)
          · split at added
            · cases added
              exact .inr (new taken)
            · split at added
              · cases added
                exact .inl taken
              · cases added
      · exact .inr ⟨List.mem_cons_of_mem _ member, different⟩

/-- The single value that incomings merge is one of them and another value than the phi. -/
theorem mem_of_mergedValue?
    {incomings : List (Option Ref)}
    (found : mergedValue? store phi incomings = some (some value)) :
    some value ∈ incomings ∧ value ≠ phi := by
  obtain ⟨merged, folded, found⟩ := Option.bind_eq_some_iff.1 found
  split at found
  · cases found
  · exact (Merged.mem_of_foldlM folded (Option.some.inj found)).resolve_left (by simp)

/-- A phi is taken out once nothing uses it, and nothing else is. -/
structure Retires (store : Store) (phi : Ref) (left : Store) : Prop where
  dwindles : store.Dwindles left
  blockOf? : ∀ ref, left.blockOf? ref = if ref = phi then none else store.blockOf? ref
  unused : left.usesOf phi = []

theorem isDeadEnd_of_isPhi (isPhi : store.isPhi phi = true) : store.isDeadEnd phi = false := by
  obtain ⟨opcode, found, isPhi⟩ := (Option.any_eq_true _ _).1 isPhi
  cases opcode <;> simp_all [isDeadEnd, Opcode.isPhi, Opcode.isUnreachable]

theorem retires_remove
    (coherent : store.Coherent)
    {answer : Unit}
    (isPhi : store.isPhi phi = true)
    (unused : store.usesOf phi = [])
    (gives : Gives (Edit.remove phi) store answer left) :
    Retires store phi left := by
  have takes := coherent.takes_remove gives
  have coherent' := ((remove_keeps phi).of_gives gives coherent).1
  have dwindles := takes.dwindles coherent coherent' fun ref member => by
    rw [List.mem_singleton.1 member]
    exact isDeadEnd_of_isPhi isPhi
  refine ⟨dwindles, fun ref => ?_, ?_⟩
  · split
    · rename_i same
      exact takes.blockOf?_taken (List.mem_singleton.2 same)
    · rename_i different
      exact takes.blockOf?_kept fun member => different (List.mem_singleton.1 member)
  · obtain ⟨opcode, found, -⟩ := (Option.any_eq_true _ _).1 isPhi
    exact dwindles.usesOf_eq_nil coherent (isInstruction_of_opcode? found) unused

theorem retires_replace
    (coherent : store.Coherent)
    {answer : Bool}
    (isPhi : store.isPhi phi = true)
    (different : value ≠ phi)
    (incoming : store.Feeds value phi ∨
      store.isBlock value = false ∧ store.isInstruction value = false)
    (gives : Gives (do
      replaceUses phi (some value)
      Edit.remove phi
      return true) store answer left) :
    Retires store phi left := by
  obtain ⟨_, between, replaces, gives⟩ := gives_bind_iff.1 gives
  obtain ⟨_, last, removes, gives⟩ := gives_bind_iff.1 gives
  obtain ⟨-, rfl⟩ := gives_pure_iff.1 gives
  have dwindles := coherent.dwindles_replaceUses isPhi incoming replaces
  have repoints := coherent.repoints_replaceUses replaces
  obtain ⟨opcode, found, -⟩ := (Option.any_eq_true _ _).1 isPhi
  have isPhi' : between.isPhi phi = true := by
    rw [dwindles.isPhi (value?_isSome_of_opcode? found), isPhi]
  have unused : between.usesOf phi = [] := by
    refine dwindles.coherent.usesOf_eq_nil_iff.2 fun user linked operand => ?_
    rw [repoints.blockOf?] at linked
    rw [repoints.operands, if_pos linked, List.mem_map] at operand
    obtain ⟨former, -, becomes⟩ := operand
    unfold replaced at becomes
    split at becomes
    · exact different (Option.some.inj becomes)
    · rename_i other
      exact other becomes
  have retires := retires_remove dwindles.coherent isPhi' unused removes
  refine ⟨dwindles.trans retires.dwindles, fun ref => ?_, retires.unused⟩
  rw [retires.blockOf?, repoints.blockOf?]

theorem mem_operands_of_incomings?
    {incomings : List (Option Ref × Option Ref)}
    {incoming source : Option Ref}
    (paired : store.incomings? phi = some incomings)
    (member : (incoming, source) ∈ incomings) :
    incoming ∈ store.operands phi := by
  obtain ⟨entry, found, paired⟩ := Option.bind_eq_some_iff.1 paired
  dsimp only at paired
  split at paired
  · cases paired
  · obtain rfl := Option.some.inj paired
    rw [operands, found]
    exact (List.of_mem_zip member).1

theorem retires_removeRedundantPhi
    (coherent : store.Coherent)
    (regular : store.Regular)
    (isPhi : store.isPhi phi = true)
    (gives : Gives (removeRedundantPhi phi) store true left) :
    Retires store phi left := by
  unfold removeRedundantPhi at gives
  obtain ⟨entry, found, gives⟩ := gives_instruction_bind_iff.1 gives
  split at gives
  · cases (gives_pure_iff.1 gives).1
  · rename_i isLinked
    replace gives := gives_see_bind_iff.1 gives
    split at gives
    · rename_i unused
      obtain ⟨_, last, removes, gives⟩ := gives_bind_iff.1 gives
      obtain ⟨-, rfl⟩ := gives_pure_iff.1 gives
      refine retires_remove coherent isPhi ?_ removes
      simpa [hasUses] using unused
    · replace gives := gives_see_bind_iff.1 gives
      obtain ⟨incomings, paired, gives⟩ := gives_demand_bind_iff.1 gives
      replace gives := gives_see_bind_iff.1 gives
      split at gives
      · cases (gives_pure_iff.1 gives).1
      · rename_i merged agreed
        split at gives
        · rename_i value
          obtain ⟨_, _, chosen, gives⟩ := gives_bind_iff.1 gives
          obtain ⟨equal, unchanged⟩ := gives_pure_iff.1 chosen
          rw [equal, unchanged] at gives
          obtain ⟨member, different⟩ := mem_of_mergedValue? agreed
          have operand : some value ∈ store.operands phi := by
            obtain ⟨⟨_, source⟩, paired', rfl⟩ := List.mem_map.1 member
            exact mem_operands_of_incomings? paired paired'
          refine retires_replace coherent isPhi different ?_ gives
          by_cases placed : store.isBlock value = true ∨ store.isInstruction value = true
          · refine .inl ⟨?_, operand, placed⟩
            simpa [Store.blockOf?, found, Option.isSome_iff_ne_none] using isLinked
          · exact .inr (by simpa using placed)
        · replace gives := gives_see_bind_iff.1 gives
          obtain ⟨module, -, gives⟩ := gives_demand_bind_iff.1 gives
          replace gives := gives_see_bind_iff.1 gives
          obtain ⟨value, between, made, gives⟩ := gives_bind_iff.1 gives
          obtain ⟨interned, interns⟩ := regular.interns_undefined made
          have coherent' := ((undefined_keeps _ _).of_gives made coherent).1
          have isPhi' : between.isPhi phi = true := by rwa [Store.isPhi, interns.opcode?]
          have content := isUndefined_iff.1 interned.undefined
          have different : value ≠ phi := by
            rintro rfl
            simp [Store.isPhi, opcode?, Store.instruction?, content] at isPhi'
          have apart : between.isBlock value = false ∧ between.isInstruction value = false := by
            simp [isBlock, isInstruction, Store.instruction?, content]
          have retires := retires_replace coherent' isPhi' different (.inr apart) gives
          refine ⟨(interns.dwindles coherent coherent').trans retires.dwindles, fun ref => ?_,
            retires.unused⟩
          rw [retires.blockOf?, interns.blockOf?]

end Pass

end ShaderIR

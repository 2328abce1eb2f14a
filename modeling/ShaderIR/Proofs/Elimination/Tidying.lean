import ShaderIR.Proofs.Coherence.Edges
import ShaderIR.Proofs.Control.Dominance
import ShaderIR.Proofs.Elimination.Parts

/-!
# Tidying

Between neutralizing blocks and taking out instructions, a round forgets merge
blocks that end unreachable and drops the incomings of phis that come from no
predecessor.  The report does not count these changes, so they happen in the
last round, too.

They leave everything in place that the rest of the round looks at.  Blocks keep
their instructions and terminators their operands, so control goes where it went
before, and what one of the changes has settled is not unsettled by another one.
-/

namespace ShaderIR

/-- An instruction as it was, without its merge block, or with fewer incomings. -/
inductive Instruction.Tidied (entry : Instruction) : Instruction → Prop
  | same : Tidied entry entry
  | unmerged : Tidied entry { entry with opcode := entry.opcode.withMerge none }
  | pruned {sources sources' : List (Option Ref)} {operands : List Slot}
      (isPhi : entry.opcode = .phi sources)
      (fewer : sources'.Sublist sources)
      (kept : operands.Sublist entry.operands)
      (balanced : operands.length + sources.length = entry.operands.length + sources'.length) :
      Tidied entry { entry with opcode := .phi sources', operands }

namespace Instruction.Tidied

variable {entry entry' entry'' : Instruction}

theorem block (tidied : entry.Tidied entry') : entry'.block = entry.block := by
  cases tidied <;> rfl

/-- What looks at neither merge blocks nor incomings sees the opcode that was there before. -/
theorem opcode_congr
    {α : Type}
    {view : Opcode → α}
    (tidied : entry.Tidied entry')
    (unmerged : ∀ opcode : Opcode, view (opcode.withMerge none) = view opcode)
    (pruned : ∀ sources sources', view (.phi sources') = view (.phi sources)) :
    view entry'.opcode = view entry.opcode := by
  cases tidied with
  | same => rfl
  | unmerged => exact unmerged entry.opcode
  | pruned isPhi => rw [isPhi]; exact pruned _ _

theorem isPhi (tidied : entry.Tidied entry') : entry'.opcode.isPhi = entry.opcode.isPhi :=
  tidied.opcode_congr (fun opcode => by cases opcode <;> rfl) fun _ _ => rfl

theorem isTerminator (tidied : entry.Tidied entry') :
    entry'.opcode.isTerminator = entry.opcode.isTerminator :=
  tidied.opcode_congr (fun opcode => by cases opcode <;> rfl) fun _ _ => rfl

theorem isUnreachable (tidied : entry.Tidied entry') :
    entry'.opcode.isUnreachable = entry.opcode.isUnreachable :=
  tidied.opcode_congr (fun opcode => by cases opcode <;> rfl) fun _ _ => rfl

theorem isConditional (tidied : entry.Tidied entry') :
    entry'.opcode.isConditional = entry.opcode.isConditional :=
  tidied.opcode_congr (fun opcode => by cases opcode <;> rfl) fun _ _ => rfl

theorem isSwitch_iff (tidied : entry.Tidied entry') {values : List Int64} :
    (∃ merge, entry'.opcode = .switch merge values) ↔
      ∃ merge, entry.opcode = .switch merge values := by
  cases tidied with
  | same => rfl
  | unmerged => cases entry.opcode <;> simp [Opcode.withMerge]
  | pruned isPhi => simp [isPhi]

theorem operands_of_terminator
    (tidied : entry.Tidied entry')
    (isTerminator : entry.opcode.isTerminator = true) :
    entry'.operands = entry.operands := by
  cases tidied with
  | same | unmerged => rfl
  | pruned isPhi => simp [isPhi, Opcode.isTerminator] at isTerminator

/-- A merge block that is still there was there before. -/
theorem merge?_of_some
    (tidied : entry.Tidied entry')
    {merge : Ref}
    (set : entry'.opcode.merge? = some (some merge)) :
    entry.opcode.merge? = some (some merge) := by
  cases tidied with
  | same => exact set
  | unmerged => cases opcode : entry.opcode <;>
      simp [opcode, Opcode.withMerge, Opcode.merge?] at set
  | pruned => simp [Opcode.merge?] at set

theorem incomingBlocks (tidied : entry.Tidied entry') :
    entry'.opcode.incomingBlocks.Sublist entry.opcode.incomingBlocks ∧
      entry'.operands.length + entry.opcode.incomingBlocks.length =
        entry.operands.length + entry'.opcode.incomingBlocks.length := by
  cases tidied with
  | same => exact ⟨.refl _, rfl⟩
  | unmerged =>
      have kept : (entry.opcode.withMerge none).incomingBlocks = entry.opcode.incomingBlocks := by
        cases entry.opcode <;> rfl
      exact ⟨by rw [kept], by rw [kept]⟩
  | pruned isPhi fewer _ balanced =>
      rw [isPhi]
      exact ⟨fewer, balanced⟩

theorem operands (tidied : entry.Tidied entry') : entry'.operands.Sublist entry.operands := by
  cases tidied with
  | same | unmerged => exact .refl _
  | pruned _ _ fewer => exact fewer

theorem trans (tidied : entry.Tidied entry') (tidied' : entry'.Tidied entry'') :
    entry.Tidied entry'' := by
  cases tidied with
  | same => exact tidied'
  | unmerged =>
      cases tidied' with
      | same => exact .unmerged
      | unmerged =>
          have once : (entry.opcode.withMerge none).withMerge none =
              entry.opcode.withMerge none := by
            cases entry.opcode <;> rfl
          rw [once]
          exact .unmerged
      | @pruned sources _ _ isPhi fewer kept balanced =>
          have isPhi' : entry.opcode = .phi sources := by
            cases opcode : entry.opcode <;> simp_all [Opcode.withMerge]
          exact .pruned isPhi' fewer kept balanced
  | pruned isPhi fewer kept balanced =>
      cases tidied' with
      | same | unmerged => exact .pruned isPhi fewer kept balanced
      | pruned isPhi' fewer' kept' balanced' =>
          cases isPhi'
          refine .pruned isPhi (fewer'.trans fewer) (kept'.trans kept) ?_
          dsimp only at balanced'
          omega

end Instruction.Tidied

namespace Store

/-- A store in which instructions were tidied and nothing else has happened. -/
structure Tidies (store left : Store) : Prop where
  ages : store.Ages left
  keeps : store.Keeps left
  instructions : ∀ block, left.instructions block = store.instructions block
  entry : ∀ {ref entry}, store.instruction? ref = some entry →
    ∃ entry', left.instruction? ref = some entry' ∧ entry.Tidied entry'
  absent : ∀ {ref}, store.instruction? ref = none → left.instruction? ref = none

instance : Edit.Lasting Tidies where
  refl store :=
    { ages := Edit.Lasting.refl store
      keeps := Edit.Lasting.refl store
      instructions := fun _ => rfl
      entry := fun found => ⟨_, found, .same⟩
      absent := fun absent => absent }
  trans := by
    intro first second third tidies tidies'
    refine
      { ages := Edit.Lasting.trans tidies.ages tidies'.ages
        keeps := Edit.Lasting.trans tidies.keeps tidies'.keeps
        instructions := fun block => (tidies'.instructions block).trans (tidies.instructions block)
        entry := fun found => ?_
        absent := fun absent => tidies'.absent (tidies.absent absent) }
    obtain ⟨entry', found', tidied⟩ := tidies.entry found
    obtain ⟨entry'', found'', tidied'⟩ := tidies'.entry found'
    exact ⟨entry'', found'', tidied.trans tidied'⟩

/-- The merge block of the terminator of a block does not end unreachable. -/
def MergeClear (store : Store) (block : Ref) : Prop :=
  ∀ {terminator entry merge}, store.terminator? block = some terminator →
    store.instruction? terminator = some entry → entry.opcode.merge? = some (some merge) →
    store.endsUnreachable merge = false

/-- A phi has a value for each of its incomings, and these come from predecessors of a block. -/
def Fed (store : Store) (block phi : Ref) : Prop :=
  ∃ entry, store.instruction? phi = some entry ∧
    entry.opcode.incomingBlocks.length ≤ entry.operands.length ∧
    ∀ incoming ∈ entry.opcode.incomingBlocks,
      ∃ source ∈ store.predecessors block, incoming = some source

namespace Tidies

variable {store left : Store} {function block phi ref : Ref}

theorem coherent (tidies : store.Tidies left) (coherent : store.Coherent) : left.Coherent :=
  (tidies.keeps coherent).1

theorem blockOf? (tidies : store.Tidies left) (ref : Ref) :
    left.blockOf? ref = store.blockOf? ref := by
  unfold Store.blockOf?
  cases found : store.instruction? ref with
  | none => rw [tidies.absent found]
  | some entry =>
      obtain ⟨entry', found', tidied⟩ := tidies.entry found
      simp [found', tidied.block]

theorem any_opcode?
    {holds : Opcode → Bool}
    (tidies : store.Tidies left)
    (same : ∀ {entry entry' : Instruction}, entry.Tidied entry' →
      holds entry'.opcode = holds entry.opcode)
    (ref : Ref) :
    (left.opcode? ref).any holds = (store.opcode? ref).any holds := by
  unfold opcode?
  cases found : store.instruction? ref with
  | none => rw [tidies.absent found]
  | some entry =>
      obtain ⟨entry', found', tidied⟩ := tidies.entry found
      simp [found', same tidied]

theorem isPhi (tidies : store.Tidies left) (ref : Ref) : left.isPhi ref = store.isPhi ref :=
  tidies.any_opcode? Instruction.Tidied.isPhi ref

theorem isTerminator (tidies : store.Tidies left) (ref : Ref) :
    left.isTerminator ref = store.isTerminator ref :=
  tidies.any_opcode? Instruction.Tidied.isTerminator ref

theorem operands_of_terminator
    (tidies : store.Tidies left)
    (isTerminator : store.isTerminator ref = true) :
    left.operands ref = store.operands ref := by
  unfold operands
  cases found : store.instruction? ref with
  | none => rw [tidies.absent found]
  | some entry =>
      obtain ⟨entry', found', tidied⟩ := tidies.entry found
      have ends : entry.opcode.isTerminator = true := by
        simpa [Store.isTerminator, opcode?, found] using isTerminator
      simp [found', Instruction.values, tidied.operands_of_terminator ends]

theorem terminator? (tidies : store.Tidies left) (block : Ref) :
    left.terminator? block = store.terminator? block := by
  unfold Store.terminator?
  rw [tidies.instructions, funext tidies.isTerminator]

theorem phis (tidies : store.Tidies left) (block : Ref) : left.phis block = store.phis block := by
  unfold Store.phis
  rw [tidies.instructions, funext tidies.isPhi]

theorem endsUnreachable (tidies : store.Tidies left) (block : Ref) :
    left.endsUnreachable block = store.endsUnreachable block := by
  unfold Store.endsUnreachable terminatorOpcode?
  rw [tidies.terminator?]
  cases store.terminator? block with
  | none => rfl
  | some terminator => exact tidies.any_opcode? Instruction.Tidied.isUnreachable terminator

theorem isNeutral (tidies : store.Tidies left) : left.IsNeutral block ↔ store.IsNeutral block := by
  rw [isNeutral_iff, isNeutral_iff, tidies.endsUnreachable, tidies.instructions]

theorem successors (tidies : store.Tidies left) (block : Ref) :
    left.successors block = store.successors block := by
  unfold Store.successors
  rw [tidies.terminator?]
  cases found : store.terminator? block with
  | none => rfl
  | some terminator =>
      dsimp only
      rw [tidies.operands_of_terminator (terminator?_eq_some_iff.1 found).2,
        funext tidies.ages.asBlock]

theorem reached (tidies : store.Tidies left) :
    left.Reached function block ↔ store.Reached function block := by
  unfold Reached Reaches
  simp only [tidies.ages.body?, tidies.successors]

theorem mem_predecessors_iff
    (tidies : store.Tidies left)
    (coherent : store.Coherent)
    {source : Ref} :
    source ∈ left.predecessors block ↔ source ∈ store.predecessors block := by
  rw [(tidies.coherent coherent).mem_predecessors_iff, coherent.mem_predecessors_iff]
  simp only [tidies.blockOf?, tidies.isTerminator, tidies.ages.blockFunction?]
  refine exists_congr fun terminator => and_congr_right fun _ => and_congr_right fun ends => ?_
  rw [tidies.operands_of_terminator ends]

/-- No use is new. -/
theorem mem_usesOf
    (tidies : store.Tidies left)
    (coherent : store.Coherent)
    {use : Use}
    (member : use ∈ left.usesOf ref) :
    use ∈ store.usesOf ref := by
  obtain ⟨entry', found', linked, slot⟩ := ((tidies.coherent coherent).mem_uses ref use).1 member
  cases found : store.instruction? use.user with
  | none => cases found'.symm.trans (tidies.absent found)
  | some entry =>
      obtain ⟨_, found'', tidied⟩ := tidies.entry found
      cases found'.symm.trans found''
      rw [tidied.block] at linked
      exact (coherent.mem_uses ref use).2 ⟨entry, found, linked, tidied.operands.subset slot⟩

theorem mergeClear (tidies : store.Tidies left) (clear : store.MergeClear block) :
    left.MergeClear block := by
  intro terminator entry' merge last found' set
  rw [tidies.terminator?] at last
  rw [tidies.endsUnreachable]
  cases found : store.instruction? terminator with
  | none =>
      rw [tidies.absent found] at found'
      cases found'
  | some entry =>
      obtain ⟨entry'', found'', tidied⟩ := tidies.entry found
      cases found'.symm.trans found''
      exact clear last found (tidied.merge?_of_some set)

theorem fed
    (tidies : store.Tidies left)
    (coherent : store.Coherent)
    (isFed : store.Fed block phi) :
    left.Fed block phi := by
  obtain ⟨entry, found, enough, sources⟩ := isFed
  obtain ⟨entry', found', tidied⟩ := tidies.entry found
  obtain ⟨fewer, balanced⟩ := tidied.incomingBlocks
  refine ⟨entry', found', by omega, fun incoming member => ?_⟩
  obtain ⟨source, predecessor, rfl⟩ := sources incoming (fewer.subset member)
  exact ⟨source, (tidies.mem_predecessors_iff coherent).2 predecessor, rfl⟩

end Tidies

/-- Rewriting instructions tidies a store when it tidies each of them. -/
theorem Rewrites.tidies
    {store left : Store}
    {change : Ref → Instruction → Instruction}
    (rewrites : store.Rewrites change left)
    (keeps : store.Keeps left)
    (tidied : ∀ {ref entry}, store.instruction? ref = some entry →
    entry.Tidied (change ref entry)) :
    store.Tidies left where
  ages := rewrites.ages
  keeps := keeps
  instructions := rewrites.instructions
  entry := by
    intro ref entry found
    exact ⟨change ref entry, by rw [rewrites.instruction?, found]; rfl, tidied found⟩
  absent := by
    intro ref absent
    rw [rewrites.instruction?, absent]
    rfl

end Store

namespace Pass

open Store Edit

variable {store left : Store}

/-! ## Forgetting merge blocks -/

theorem tidies_forgetMerge
    {terminator : Ref}
    {entry : Instruction}
    {answer : Unit}
    (found : store.instruction? terminator = some entry)
    (gives : Gives (setOpcode terminator (entry.opcode.withMerge none)) store answer left) :
    store.Tidies left := by
  have keeps : store.Keeps left := by
    have distinct : store.Coherent → (entry.opcode.withMerge none).caseValues.Nodup := by
      intro coherent
      rw [caseValues_withMerge]
      exact coherent.casesDistinct found
    have kept := setOpcode_keeps found distinct
    rw [gives] at kept
    exact kept
  refine (rewrites_setOpcode gives).tidies keeps fun {ref entry'} found' => ?_
  by_cases same : terminator = ref
  · subst same
    cases found.symm.trans found'
    rw [if_pos rfl]
    exact .unmerged
  · rw [if_neg same]
    exact .same

/-- The terminator of a block loses its merge block if that one ends unreachable. -/
theorem tidies_clearMerge
    {block : Ref}
    {answer : Unit}
    (gives : Gives (clearMerge block) store answer left) :
    store.Tidies left ∧ left.MergeClear block := by
  replace gives := gives_see_bind_iff.1 gives
  split at gives
  · rename_i unended
    obtain ⟨-, rfl⟩ := gives_pure_iff.1 gives
    exact ⟨Lasting.refl left, fun last => by simp [unended] at last⟩
  · rename_i terminator ends
    obtain ⟨entry, found, gives⟩ := gives_instruction_bind_iff.1 gives
    -- Where nothing changes, the block has to be clear already.
    have unchanged : (∀ merge, entry.opcode.merge? = some (some merge) →
        store.endsUnreachable merge = false) → store.MergeClear block := by
      intro clear terminator' entry' merge ends' found' set
      cases ends.symm.trans ends'
      cases found.symm.trans found'
      exact clear merge set
    dsimp only at gives
    split at gives
    · rename_i merge set
      replace gives := gives_see_bind_iff.1 gives
      split at gives
      · have tidies := tidies_forgetMerge found gives
        refine ⟨tidies, fun {terminator' entry' merge'} ends' found' set' => ?_⟩
        rw [tidies.terminator?] at ends'
        cases ends.symm.trans ends'
        rw [(rewrites_setOpcode gives).instruction?, found, Option.map_some, if_pos rfl] at found'
        cases found'
        cases opcode : entry.opcode <;> simp [opcode, Opcode.withMerge, Opcode.merge?] at set'
      · rename_i notEnd
        obtain ⟨-, rfl⟩ := gives_pure_iff.1 gives
        refine ⟨Lasting.refl left, unchanged fun merge' set' => ?_⟩
        cases set.symm.trans set'
        simpa using notEnd
    · rename_i unset
      obtain ⟨-, rfl⟩ := gives_pure_iff.1 gives
      exact ⟨Lasting.refl left, unchanged fun merge set => absurd set (unset merge)⟩

theorem tidies_clearMerges
    {blocks : List Ref}
    {answer : Unit}
    (gives : Gives (clearMerges blocks) store answer left) :
    store.Tidies left ∧ ∀ block ∈ blocks, left.MergeClear block := by
  induction blocks generalizing store with
  | nil =>
      obtain ⟨-, rfl⟩ := gives_pure_iff.1 gives
      exact ⟨Lasting.refl left, by simp⟩
  | cons block rest induction =>
      obtain ⟨_, between, first, gives⟩ := gives_bind_iff.1 gives
      obtain ⟨tidies, clear⟩ := tidies_clearMerge first
      obtain ⟨tidies', others⟩ := induction gives
      refine ⟨Lasting.trans tidies tidies', fun other member => ?_⟩
      rcases List.mem_cons.1 member with rfl | later
      · exact tidies'.mergeClear clear
      · exact others other later

theorem gives_clearMerges
    {blocks : List Ref}
    (clear : ∀ block ∈ blocks, store.MergeClear block) :
    Gives (clearMerges blocks) store () store := by
  induction blocks with
  | nil => exact gives_pure_iff.2 ⟨rfl, rfl⟩
  | cons block rest induction =>
      refine gives_bind_iff.2 ⟨(), store, gives_see_bind_iff.2 ?_,
        induction fun other member => clear other (List.mem_cons_of_mem _ member)⟩
      split
      · exact gives_pure_iff.2 ⟨rfl, rfl⟩
      · rename_i terminator ends
        have isTerminator := (terminator?_eq_some_iff.1 ends).2
        cases found : store.instruction? terminator with
        | none => simp [Store.isTerminator, opcode?, found] at isTerminator
        | some entry =>
            refine gives_instruction_bind_iff.2 ⟨entry, found, ?_⟩
            dsimp only
            split
            · rename_i merge set
              refine gives_see_bind_iff.2 ?_
              rw [clear block List.mem_cons_self ends found set]
              exact gives_pure_iff.2 ⟨rfl, rfl⟩
            · exact gives_pure_iff.2 ⟨rfl, rfl⟩

/-! ## Dropping incomings -/

theorem tidies_removeIncoming
    {phi : Ref}
    {position : Nat}
    {answer : Unit}
    (gives : Gives (removeIncoming phi position) store answer left) :
    store.Tidies left ∧ ∃ entry, store.instruction? phi = some entry ∧
      left.instruction? phi = some (entry.withoutIncoming position) := by
  obtain ⟨rewrites, entry, found, within, within'⟩ := rewrites_removeIncoming gives
  refine ⟨rewrites.tidies ((removeIncoming_keeps phi position).of_gives gives)
    fun {ref entry'} found' => ?_, entry, found, by simp [rewrites.instruction?, found]⟩
  by_cases same : phi = ref
  · subst same
    cases found.symm.trans found'
    rw [if_pos rfl]
    cases opcode : entry.opcode with
    | phi sources =>
        rw [opcode] at within'
        have fewer := List.eraseIdx_sublist sources position
        have kept := List.eraseIdx_sublist entry.operands position
        have balanced : (entry.operands.eraseIdx position).length + sources.length =
            entry.operands.length + (sources.eraseIdx position).length := by
          have within' : position < sources.length := within'
          rw [List.length_eraseIdx_of_lt within, List.length_eraseIdx_of_lt within']
          omega
        have pruned := Instruction.Tidied.pruned opcode fewer kept balanced
        simpa [Instruction.withoutIncoming, opcode, Opcode.incomingBlocks] using pruned
    | _ => simp [opcode, Opcode.incomingBlocks] at within'
  · rw [if_neg same]
    exact .same

/-- Below the position, only incomings from the given blocks are left. -/
theorem tidies_pruneIncomings
    {sources : List Ref}
    {phi : Ref}
    {bound : Nat}
    {answer : Unit}
    {entry : Instruction}
    (found : store.instruction? phi = some entry)
    (gives : Gives (pruneIncomings sources phi bound) store answer left) :
    store.Tidies left ∧ ∃ entry', left.instruction? phi = some entry' ∧
      ∀ incoming ∈ entry'.opcode.incomingBlocks,
        (∃ source ∈ sources, incoming = some source) ∨
          incoming ∈ entry.opcode.incomingBlocks.drop bound := by
  induction bound generalizing store entry with
  | zero =>
      obtain ⟨-, rfl⟩ := gives_pure_iff.1 gives
      exact ⟨Lasting.refl left, entry, found, fun incoming member => .inr member⟩
  | succ position induction =>
      obtain ⟨_, between, given, rest⟩ := gives_bind_iff.1 gives
      obtain ⟨-, equal⟩ := gives_operand_iff.1 given
      rw [equal] at rest
      obtain ⟨entry', found', gives⟩ := gives_instruction_bind_iff.1 rest
      cases found.symm.trans found'
      dsimp only at gives
      obtain ⟨source, atPosition, gives⟩ := gives_demand_bind_iff.1 gives
      have next : entry.opcode.incomingBlocks.drop position =
          source :: entry.opcode.incomingBlocks.drop (position + 1) := by
        obtain ⟨within, rfl⟩ := List.getElem?_eq_some_iff.1 atPosition
        exact List.drop_eq_getElem_cons within
      split at gives
      · obtain ⟨_, between, removed, gives⟩ := gives_bind_iff.1 gives
        obtain ⟨tidies, entry', found', pruned⟩ := tidies_removeIncoming removed
        cases found.symm.trans found'
        obtain ⟨tidies', last, foundLast, rest⟩ := induction pruned gives
        refine ⟨Lasting.trans tidies tidies', last, foundLast, fun incoming member => ?_⟩
        have shifted : (entry.opcode.incomingBlocks.eraseIdx position).drop position =
            entry.opcode.incomingBlocks.drop (position + 1) := by
          have within := (List.getElem?_eq_some_iff.1 atPosition).1
          rw [List.eraseIdx_eq_take_drop_succ, List.drop_left' (List.length_take_of_le within.le)]
        refine (rest incoming member).imp_right fun later => ?_
        rw [← shifted]
        exact later
      · rename_i kept
        obtain ⟨tidies, last, foundLast, rest⟩ := induction found gives
        refine ⟨tidies, last, foundLast, fun incoming member => ?_⟩
        rcases rest incoming member with fromSource | later
        · exact .inl fromSource
        · rw [next] at later
          rcases List.mem_cons.1 later with rfl | later
          · have listed : incoming.any sources.contains = true := by simpa using kept
            obtain ⟨source, rfl, known⟩ := (Option.any_eq_true _ _).1 listed
            exact .inl ⟨source, by simpa using known, rfl⟩
          · exact .inr later

/-- Incomings are only looked at where there is a value for them. -/
theorem le_length_of_pruneIncomings
    {sources : List Ref}
    {phi : Ref}
    {bound : Nat}
    {answer : Unit}
    {entry : Instruction}
    (found : store.instruction? phi = some entry)
    (gives : Gives (pruneIncomings sources phi bound) store answer left) :
    bound ≤ entry.operands.length := by
  cases bound with
  | zero => exact Nat.zero_le _
  | succ position =>
      obtain ⟨_, _, given, -⟩ := gives_bind_iff.1 gives
      obtain ⟨⟨entry', found', held⟩, -⟩ := gives_operand_iff.1 given
      cases found.symm.trans found'
      obtain ⟨slot, held, -⟩ := Option.map_eq_some_iff.1 held
      exact (List.getElem?_eq_some_iff.1 held).1

theorem fed_pruneIncomings
    (coherent : store.Coherent)
    {sources : List Ref}
    {block phi : Ref}
    {entry : Instruction}
    {answer : Unit}
    (predecessors : ∀ source ∈ sources, source ∈ store.predecessors block)
    (found : store.instruction? phi = some entry)
    (gives : Gives (pruneIncomings sources phi entry.opcode.incomingBlocks.length) store answer
      left) :
    store.Tidies left ∧ left.Fed block phi := by
  have enough := le_length_of_pruneIncomings found gives
  obtain ⟨tidies, last, foundLast, kept⟩ := tidies_pruneIncomings found gives
  obtain ⟨entry', found', tidied⟩ := tidies.entry found
  cases foundLast.symm.trans found'
  refine ⟨tidies, last, foundLast, ?_, fun incoming member => ?_⟩
  · have balanced := tidied.incomingBlocks.2
    omega
  · rcases kept incoming member with ⟨source, listed, rfl⟩ | later
    · exact ⟨source, (tidies.mem_predecessors_iff coherent).2 (predecessors source listed), rfl⟩
    · simp at later

theorem fed_prunePhis
    (coherent : store.Coherent)
    {sources : List Ref}
    {block : Ref}
    {phis : List Ref}
    {answer : Unit}
    (predecessors : ∀ source ∈ sources, source ∈ store.predecessors block)
    (gives : Gives (prunePhis sources phis) store answer left) :
    store.Tidies left ∧ ∀ phi ∈ phis, left.Fed block phi := by
  induction phis generalizing store with
  | nil =>
      obtain ⟨-, rfl⟩ := gives_pure_iff.1 gives
      exact ⟨Lasting.refl left, by simp⟩
  | cons phi rest induction =>
      obtain ⟨entry, found, gives⟩ := gives_instruction_bind_iff.1 gives
      obtain ⟨_, between, first, gives⟩ := gives_bind_iff.1 gives
      obtain ⟨tidies, isFed⟩ := fed_pruneIncomings coherent predecessors found first
      have coherent' := tidies.coherent coherent
      obtain ⟨tidies', others⟩ := induction coherent'
        (fun source member => (tidies.mem_predecessors_iff coherent).2 (predecessors source member))
        gives
      refine ⟨Lasting.trans tidies tidies', fun other member => ?_⟩
      rcases List.mem_cons.1 member with rfl | later
      · exact tidies'.fed coherent' isFed
      · exact others other later

/-- All phis of the blocks are listed, and they are fed by predecessors only. -/
theorem fed_pruneBlocks
    (coherent : store.Coherent)
    {blocks phis : List Ref}
    (gives : Gives (pruneBlocks blocks) store phis left) :
    store.Tidies left ∧ phis = blocks.flatMap store.phis ∧
      ∀ block ∈ blocks, ∀ phi ∈ store.phis block, left.Fed block phi := by
  induction blocks generalizing store phis with
  | nil =>
      obtain ⟨rfl, rfl⟩ := gives_pure_iff.1 gives
      exact ⟨Lasting.refl left, rfl, by simp⟩
  | cons block rest induction =>
      replace gives := gives_see_bind_iff.1 (gives_see_bind_iff.1 gives)
      obtain ⟨_, between, first, gives⟩ := gives_bind_iff.1 gives
      obtain ⟨others, last, pruned, gives⟩ := gives_bind_iff.1 gives
      obtain ⟨rfl, rfl⟩ := gives_pure_iff.1 gives
      obtain ⟨tidies, isFed⟩ := fed_prunePhis coherent (fun source member => member) first
      have coherent' := tidies.coherent coherent
      obtain ⟨tidies', rfl, areFed⟩ := induction coherent' pruned
      have samePhis : between.phis = store.phis := funext tidies.phis
      refine ⟨Lasting.trans tidies tidies', by rw [List.flatMap_cons, samePhis], ?_⟩
      intro other member phi phiMember
      rcases List.mem_cons.1 member with rfl | later
      · exact tidies'.fed coherent' (isFed phi phiMember)
      · exact areFed other later phi (by rwa [samePhis])

/-! Where all phis are fed by predecessors, no incoming is dropped. -/

theorem gives_pruneIncomings
    {sources : List Ref}
    {phi : Ref}
    {entry : Instruction}
    {bound : Nat}
    (found : store.instruction? phi = some entry)
    (enough : entry.opcode.incomingBlocks.length ≤ entry.operands.length)
    (fromSource : ∀ incoming ∈ entry.opcode.incomingBlocks,
      ∃ source ∈ sources, incoming = some source)
    (within : bound ≤ entry.opcode.incomingBlocks.length) :
    Gives (pruneIncomings sources phi bound) store () store := by
  induction bound with
  | zero => exact gives_pure_iff.2 ⟨rfl, rfl⟩
  | succ position induction =>
      have inside : position < entry.opcode.incomingBlocks.length := within
      have held : position < entry.operands.length := Nat.lt_of_lt_of_le inside enough
      refine gives_bind_iff.2 ⟨entry.operands[position].value, store, gives_operand_iff.2
        ⟨⟨entry, found, by simp [Instruction.operand?, held]⟩, rfl⟩, ?_⟩
      refine gives_instruction_bind_iff.2 ⟨entry, found, ?_⟩
      refine gives_demand_bind_iff.2
        ⟨entry.opcode.incomingBlocks[position], List.getElem?_eq_getElem inside, ?_⟩
      obtain ⟨source, member, equal⟩ :=
        fromSource _ (List.getElem_mem inside)
      rw [equal]
      rw [if_neg (by simpa using member)]
      exact induction (Nat.le_of_succ_le within)

theorem gives_prunePhis
    {block : Ref}
    {phis : List Ref}
    (areFed : ∀ phi ∈ phis, store.Fed block phi) :
    Gives (prunePhis (store.predecessors block) phis) store () store := by
  induction phis with
  | nil => exact gives_pure_iff.2 ⟨rfl, rfl⟩
  | cons phi rest induction =>
      obtain ⟨entry, found, enough, fromSource⟩ := areFed phi List.mem_cons_self
      refine gives_instruction_bind_iff.2 ⟨entry, found, gives_bind_iff.2 ⟨(), store, ?_, ?_⟩⟩
      · exact gives_pruneIncomings found enough fromSource (Nat.le_refl _)
      · exact induction fun other member => areFed other (List.mem_cons_of_mem _ member)

theorem gives_pruneBlocks
    {blocks : List Ref}
    (areFed : ∀ block ∈ blocks, ∀ phi ∈ store.phis block, store.Fed block phi) :
    Gives (pruneBlocks blocks) store (blocks.flatMap store.phis) store := by
  induction blocks with
  | nil => exact gives_pure_iff.2 ⟨rfl, rfl⟩
  | cons block rest induction =>
      refine gives_see_bind_iff.2 (gives_see_bind_iff.2 (gives_bind_iff.2 ⟨(), store, ?_, ?_⟩))
      · exact gives_prunePhis (areFed block List.mem_cons_self)
      · refine gives_bind_iff.2 ⟨rest.flatMap store.phis, store, ?_, gives_pure_iff.2 ⟨rfl, rfl⟩⟩
        exact induction fun other member => areFed other (List.mem_cons_of_mem _ member)

end Pass

end ShaderIR

import ShaderIR.Proofs.Coherence.Session
import ShaderIR.Proofs.Elimination.Liveness

/-!
# The normal form of the elimination

The elimination ends with a round that removes nothing and neutralizes nothing.
Merge blocks and incomings may still be dropped in that round, after it has looked
for blocks to be neutralized.  Dropping them does not bring up any such block, since
control goes where it went before, and no value gets a new user.  So the store that
is left has nothing for another round to do, and eliminating once more changes
nothing.
-/

namespace ShaderIR

namespace Store

variable {store left : Store}

theorem Tidies.detached (tidies : store.Tidies left) {ref : Ref} (detached : store.Detached ref) :
    left.Detached ref := by
  obtain ⟨entry, found, unlinked⟩ := detached
  obtain ⟨entry', found', tidied⟩ := tidies.entry found
  exact ⟨entry', found', tidied.block.trans unlinked⟩

/-- A function without dead code. -/
structure Trimmed (store : Store) (function : Ref) : Prop where
  /-- Reached blocks from which control only comes to unreachable ends are neutral. -/
  nowhere : ∀ block, store.Reached function block → store.LeadsNowhere block →
    store.IsNeutral block
  /-- Targets that a constant condition excludes are neutral. -/
  excluded : ∀ block target, store.Reached function block → store.Excludes block target →
    store.IsNeutral target
  /-- No merge block ends unreachable. -/
  merges : ∀ block terminator entry merge, store.Reached function block →
    store.terminator? block = some terminator → store.instruction? terminator = some entry →
    entry.opcode.merge? = some (some merge) → store.endsUnreachable merge = false
  /-- Phis have incomings from predecessors only. -/
  incomings : ∀ block phi entry, store.Reached function block → phi ∈ store.phis block →
    store.instruction? phi = some entry → ∀ incoming ∈ entry.opcode.incomingBlocks,
      ∃ source ∈ store.predecessors block, incoming = some source
  /-- Phis are used. -/
  used : ∀ block phi, store.Reached function block → phi ∈ store.phis block →
    store.hasUses phi = true
  /-- Phis are not redundant: removing them is refused. -/
  refused : ∀ block phi, store.Reached function block → phi ∈ store.phis block →
    Edit.Gives (Pass.removeRedundantPhi phi) store false store
  /-- Instructions of reached blocks are needed. -/
  needed : ∀ block ref, store.Reached function block → ref ∈ store.instructions block →
    store.Needed function ref
  /-- Variables of reached blocks are not only written. -/
  read : ∀ block ref, store.Reached function block → ref ∈ store.instructions block →
    store.isVariable ref = true → ¬store.WriteOnly ref

end Store

namespace Pass

open Store Edit Elimination

variable {store left : Store} {function : Ref} {report report' : Elimination}

namespace Elimination

theorem Records.tidies (records : report.Records store) (tidies : store.Tidies left) :
    report.Records left where
  coherent := tidies.coherent records.coherent
  detached := fun ref member => tidies.detached (records.detached ref member)

end Elimination

/-- A round has nothing to do in a function. -/
structure Settled (store : Store) (function : Ref) : Prop where
  cut : CutDown store function
  clear : ∀ {block}, store.Reached function block → store.MergeClear block
  fed : ∀ {block phi}, store.Reached function block → phi ∈ store.phis block →
    store.Fed block phi
  spare : Spare store function ((store.reversePostOrder function).flatMap store.phis)

/-- A report grows in a round, and a round that makes no progress leaves nothing to do. -/
theorem settled_of_round
    (records : report.Records store)
    (gives : Gives (eliminationRound function report) store report' left) :
    report'.Records left ∧
      (report.removed.length ≤ report'.removed.length ∧
        report.neutralized ≤ report'.neutralized) ∧
      (report'.progress = report.progress → Settled left function) := by
  obtain ⟨doomedReport, doomedStore, doomedGives, gives⟩ := gives_bind_iff.1 gives
  obtain ⟨deadReport, deadStore, deadGives, gives⟩ := gives_bind_iff.1 gives
  replace gives := gives_see_bind_iff.1 gives
  obtain ⟨_, clearStore, clearGives, gives⟩ := gives_bind_iff.1 gives
  replace gives := gives_see_bind_iff.1 gives
  obtain ⟨phis, prunedStore, prunedGives, gives⟩ := gives_bind_iff.1 gives
  replace gives := gives_see_bind_iff.1 gives
  have doomedAdvances := advances_neutralizeDoomed records doomedGives
  have deadAdvances := advances_neutralizeDead doomedAdvances.records deadGives
  have deadCoherent := deadAdvances.records.coherent
  obtain ⟨clears, clear⟩ := tidies_clearMerges clearGives
  obtain ⟨prunes, rfl, fed⟩ := fed_pruneBlocks (clears.coherent deadCoherent) prunedGives
  have tidies : deadStore.Tidies prunedStore := Lasting.trans clears prunes
  have records' :
      Elimination.Records { deadReport with rounds := deadReport.rounds + 1 } prunedStore :=
    ⟨(deadAdvances.records.tidies tidies).coherent, (deadAdvances.records.tidies tidies).detached⟩
  obtain ⟨advances, spare⟩ := spare_of_removeUseless records' gives
  have deadAdvances' := doomedAdvances.trans deadAdvances
  have removed := deadAdvances'.removed
  have neutralized := deadAdvances'.neutralized
  have removed' := advances.removed
  have neutralized' := advances.neutralized
  refine ⟨advances.records, ⟨removed.trans removed', neutralized.trans neutralized'⟩,
    fun same => ?_⟩
  -- Reports only grow, so each part of the round is as quiet as the whole.
  simp only [progress, Prod.mk.injEq] at same removed' neutralized'
  have quietDead : deadReport.progress = report.progress := by
    simp only [progress, Prod.mk.injEq]
    omega
  have quietLast : report'.progress =
      Elimination.progress { deadReport with rounds := deadReport.rounds + 1 } := by
    simp only [progress, Prod.mk.injEq]
    omega
  obtain ⟨rfl, rfl⟩ := doomedAdvances.quiet_first deadAdvances quietDead
  obtain ⟨rfl, rfl⟩ := deadAdvances.quiet quietDead
  obtain ⟨-, rfl⟩ := advances.quiet quietLast
  have listed : ∀ block, block ∈ deadStore.reversePostOrder function ↔
      deadStore.Reached function block :=
    fun block => mem_reversePostOrder_iff_reached records.coherent
  have listed' : ∀ block, block ∈ clearStore.reversePostOrder function ↔
      clearStore.Reached function block :=
    fun block => mem_reversePostOrder_iff_reached (clears.coherent records.coherent)
  refine
    { cut := (cutDown_of_quiet records doomedGives deadGives).tidies records.coherent tidies
      clear := fun {block} reached =>
        prunes.mergeClear (clear block ((listed block).2 (tidies.reached.1 reached)))
      fed := fun {block phi} reached member => ?_
      spare := (spare quietLast).of_subset fun phi member => ?_ }
  · rw [prunes.phis] at member
    exact fed block ((listed' block).2 (prunes.reached.1 reached)) phi member
  · obtain ⟨block, inOrder, member⟩ := List.mem_flatMap.1 member
    rw [prunes.phis] at member
    refine List.mem_flatMap.2 ⟨block, (listed' block).2 (prunes.reached.1 ?_), member⟩
    exact (mem_reversePostOrder_iff_reached advances.records.coherent).1 inOrder

/-- Elimination leaves nothing to do. -/
theorem settled_of_eliminate
    {bound : Nat}
    (records : report.Records store)
    (gives : Gives (eliminate function bound report) store report' left) :
    left.Coherent ∧ Settled left function := by
  induction bound generalizing report store with
  | zero => exact absurd gives not_gives_endless
  | succ bound induction =>
      obtain ⟨next, between, round, gives⟩ := gives_bind_iff.1 gives
      obtain ⟨records', -, settled⟩ := settled_of_round records round
      split at gives
      · rename_i quiet
        obtain ⟨rfl, rfl⟩ := gives_pure_iff.1 gives
        exact ⟨records'.coherent, settled quiet⟩
      · exact induction records' gives

/-- Where there is nothing to do, a round does nothing but count itself. -/
theorem Settled.gives_round
    (settled : Settled store function)
    (coherent : store.Coherent)
    (report : Elimination) :
    Gives (eliminationRound function report) store
      { report with rounds := report.rounds + 1 } store := by
  have listed : ∀ block, block ∈ store.reversePostOrder function ↔ store.Reached function block :=
    fun block => mem_reversePostOrder_iff_reached coherent
  refine gives_bind_iff.2
    ⟨report, store, gives_neutralizeDoomed report coherent settled.cut.nowhere, ?_⟩
  refine gives_bind_iff.2
    ⟨report, store, settled.cut.gives_neutralizeDead coherent report, gives_see_bind_iff.2 ?_⟩
  refine gives_bind_iff.2 ⟨(), store, gives_clearMerges ?_, gives_see_bind_iff.2 ?_⟩
  · exact fun block member => settled.clear ((listed block).1 member)
  · refine gives_bind_iff.2 ⟨_, store, gives_pruneBlocks ?_, gives_see_bind_iff.2 ?_⟩
    · exact fun block member phi inside => settled.fed ((listed block).1 member) inside
    · exact settled.spare.gives_removeUseless coherent _ _

/-- A phi that is refused is linked and used. -/
theorem hasUses_of_refused
    {phi : Ref}
    (refused : Gives (removeRedundantPhi phi) store false left)
    (linked : (store.blockOf? phi).isSome) :
    store.hasUses phi = true := by
  obtain ⟨entry, found, gives⟩ := gives_instruction_bind_iff.1 refused
  have isLinked : ¬entry.block.isNone = true := by
    simpa [blockOf?, found, Option.isSome_iff_ne_none] using linked
  rw [if_neg isLinked] at gives
  replace gives := gives_see_bind_iff.1 gives
  split at gives
  · obtain ⟨_, _, -, gives⟩ := gives_bind_iff.1 gives
    cases (gives_pure_iff.1 gives).1
  · rename_i used
    simpa using used

theorem Settled.trimmed (settled : Settled store function) (coherent : store.Coherent) :
    store.Trimmed function := by
  have listed : ∀ {block ref}, store.Reached function block → ref ∈ store.instructions block →
      ref ∈ store.traverse function :=
    fun reached member => coherent.mem_traverse_iff.2 ⟨_, reached, member⟩
  have refused : ∀ {block phi}, store.Reached function block → phi ∈ store.phis block →
      Gives (removeRedundantPhi phi) store false store := by
    intro block phi reached member
    refine settled.spare.refused phi (List.mem_flatMap.2 ⟨block, ?_, member⟩)
    exact (mem_reversePostOrder_iff_reached coherent).2 reached
  have inside : ∀ {block phi}, phi ∈ store.phis block → phi ∈ store.instructions block :=
    fun member => List.takeWhile_subset _ member
  refine
    { nowhere := fun block reached nowhere => settled.cut.nowhere reached nowhere
      excluded := fun block target reached excludes => ?_
      merges := fun block terminator entry merge reached ends found set =>
        settled.clear reached ends found set
      incomings := fun block phi entry reached member found => ?_
      used := fun block phi reached member => ?_
      refused := fun block phi reached member => refused reached member
      needed := fun block ref reached member => settled.spare.needed ref (listed reached member)
      read := fun block ref reached member => settled.spare.read ref (listed reached member) }
  · obtain ⟨targets, given, neutral⟩ := settled.cut.excluded reached
    exact neutral target (mem_excludedTargets given excludes)
  · obtain ⟨entry', found', -, sources⟩ := settled.fed reached member
    cases found.symm.trans found'
    exact sources
  · refine hasUses_of_refused (refused reached member) ?_
    exact coherent.blockOf?_isSome_of_mem_traverse (listed reached (inside member))

/-- Where there is nothing to do, eliminating dead code removes and neutralizes nothing. -/
theorem Settled.gives_eliminateDeadCode
    (settled : Settled store function)
    (coherent : store.Coherent) :
    ∃ again, Gives (eliminateDeadCode function) store again store ∧
      again.removed = [] ∧ again.neutralized = 0 := by
  by_cases bodiless : (store.body? function).isNone
  · refine ⟨{}, gives_see_bind_iff.2 ?_, rfl, rfl⟩
    rw [if_pos bodiless]
    exact gives_pure_iff.2 ⟨rfl, rfl⟩
  · refine ⟨{ rounds := 1 }, gives_see_bind_iff.2 ?_, rfl, rfl⟩
    rw [if_neg bodiless]
    refine gives_see_bind_iff.2 (gives_bind_iff.2 ⟨_, store, settled.gives_round coherent {}, ?_⟩)
    exact gives_pure_iff.2 ⟨rfl, rfl⟩

theorem trimmed_of_bodiless (bodiless : store.body? function = none) :
    store.Trimmed function := by
  have unreached : ∀ block, ¬store.Reached function block := by
    rintro block ⟨body, hasBody, -⟩
    cases bodiless.symm.trans hasBody
  constructor <;> intros <;> exact absurd ‹_› (unreached _)

/-- Elimination leaves a function without dead code, and eliminating again changes nothing. -/
theorem trimmed_of_eliminateDeadCode
    (coherent : store.Coherent)
    (gives : Gives (eliminateDeadCode function) store report left) :
    left.Trimmed function ∧ ∃ again, Gives (eliminateDeadCode function) left again left ∧
      again.removed = [] ∧ again.neutralized = 0 := by
  have whole := gives
  replace gives := gives_see_bind_iff.1 gives
  split at gives
  · rename_i bodiless
    obtain ⟨rfl, rfl⟩ := gives_pure_iff.1 gives
    exact ⟨trimmed_of_bodiless (Option.isNone_iff_eq_none.1 bodiless), {}, whole, rfl, rfl⟩
  · have records : Elimination.Records {} store := ⟨coherent, by simp⟩
    obtain ⟨coherent', settled⟩ := settled_of_eliminate records (gives_see_bind_iff.1 gives)
    exact ⟨settled.trimmed coherent', settled.gives_eliminateDeadCode coherent'⟩

/--
A branch with a constant condition, the two sides of which meet at a phi.  One side
is excluded, so that the phi has a single incoming left, and the clock is not read
by anything.
-/
def shortcut : Store :=
  let truth : Ty := .scalar ⟨0, 0, "bool"⟩ ⟨.bool, 1⟩
  (Session.after [
    .edit (.addModule "shortcut"),
    .edit (.createFunction 0 .kernel none),
    .edit (.createBody ⟨0⟩),
    .edit (.createBlock ⟨0⟩),
    .edit (.createBlock ⟨0⟩),
    .edit (.createBlock ⟨0⟩),
    .edit (.constantBool 0 false),
    .edit (.createArgument ⟨0⟩ .byValue (some truth)),
    .moveToEnd ⟨1⟩, .clock, .condBranch (some ⟨5⟩) (some ⟨2⟩) (some ⟨3⟩),
    .moveToEnd ⟨2⟩, .emit .branch none [some ⟨4⟩] (.refl true),
    .moveToEnd ⟨3⟩, .emit .branch none [some ⟨4⟩] (.refl true),
    .moveToEnd ⟨4⟩, .phi (some truth) [(some ⟨5⟩, some ⟨2⟩), (some ⟨6⟩, some ⟨3⟩)],
    .assertTrue (some ⟨11⟩) "", .emit .ret none [] (.refl true)]).store

theorem coherent_shortcut : shortcut.Coherent :=
  (Session.after_coherent _).store

theorem exists_trimmed_shortcut :
    ∃ report left, Gives (eliminateDeadCode ⟨0⟩) shortcut report left ∧
      report.removed = [⟨11⟩, ⟨7⟩, ⟨9⟩] ∧ report.neutralized = 1 ∧ left.Trimmed ⟨0⟩ ∧
      ∃ again, Gives (eliminateDeadCode ⟨0⟩) left again left ∧
        again.removed = [] ∧ again.neutralized = 0 := by
  have returns : (outcome (eliminateDeadCode ⟨0⟩) shortcut).1.toOption.map
      (fun report => (report.removed, report.neutralized)) =
        some ([⟨11⟩, ⟨7⟩, ⟨9⟩], 1) := by
    decide +kernel
  rcases run : outcome (eliminateDeadCode ⟨0⟩) shortcut with ⟨fault | report, left⟩
  · rw [run] at returns
    cases returns
  · rw [run] at returns
    have counted := Prod.mk.inj (Option.some.inj returns)
    exact ⟨report, left, run, counted.1, counted.2,
      trimmed_of_eliminateDeadCode coherent_shortcut run⟩

end Pass

end ShaderIR

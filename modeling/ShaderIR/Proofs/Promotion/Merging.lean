import ShaderIR.Proofs.Promotion.Placing
import ShaderIR.Proofs.Promotion.Termination

/-!
# What the phis of promotion merge

Promoting a variable places phis.  Each of them gets one incoming for each block
control comes from, and those blocks stay predecessors.  At the end redundant phis are
removed until a pass over all phis finds none.  So a phi that is left merges two
different values from two different predecessors.

The way into the first block of a function is not among its predecessors.  That block
gets a phi only if two other blocks lead back to it.
-/

namespace ShaderIR

open Store Edit

namespace Store

/-- A phi of a block merges two values from two predecessors of the block. -/
def Merges (store : Store) (block phi : Ref) : Prop :=
  ∃ incomings first source second source',
    store.incomings? phi = some incomings ∧
      (first, some source) ∈ incomings ∧ source ∈ store.predecessors block ∧
      (second, some source') ∈ incomings ∧ source' ∈ store.predecessors block ∧
      source ≠ source' ∧ first ≠ second ∧ first ≠ some phi ∧ second ≠ some phi

end Store

namespace Pass

variable {store left : Store} {function ref block phi : Ref} {phis : List Ref}
  {accesses : Accesses} {report report' : Promotion}

/-! ## Values that differ -/

theorem isInvariant_of_isUndefinedOption
    {value : Option Ref}
    (undefined : store.isUndefinedOption value = true) :
    store.isInvariant value = true := by
  obtain ⟨ref, rfl, undefined⟩ := (Option.any_eq_true _ _).1 undefined
  simp [isInvariant, isUndefined_iff.1 undefined, Content.isInvariant]

/-- Incomings that are the phi itself or one value are merged to that value, if to any. -/
theorem Merged.exists_of_agree
    {incomings : List (Option Ref)}
    {merged : Merged}
    {value : Option Ref}
    (agree : ∀ incoming ∈ incomings, incoming = some phi ∨ incoming = value)
    (start : merged.value = none ∨ merged.value = value)
    (undefined : merged.sawUndefined = true → store.isUndefinedOption value = true) :
    ∃ merged', incomings.foldlM (Merged.add store phi) merged = some merged' ∧
      (merged'.value = none ∨ merged'.value = value) ∧
      (merged'.sawUndefined = true → store.isUndefinedOption value = true) := by
  induction incomings generalizing merged with
  | nil => exact ⟨merged, rfl, start, undefined⟩
  | cons incoming rest induction =>
      obtain ⟨here, later⟩ := List.forall_mem_cons.1 agree
      rw [List.foldlM_cons]
      unfold Merged.add
      split
      · exact induction later start undefined
      · rename_i notPhi
        obtain rfl := here.resolve_left notPhi
        split
        · rename_i isUndefined
          refine induction later ?_ fun _ => isUndefined
          rcases start with none | same
          · exact .inr (by rw [none, Option.none_or])
          · cases incoming <;> simp [same]
        · split
          · exact induction later (.inr rfl) undefined
          · rename_i present
            rcases start with none | same
            · simp [none] at present
            · rw [if_pos same]
              exact induction later (.inr same) undefined

/-- Where values are not merged, two of them differ. -/
theorem exists_ne_of_mergedValue?
    {incomings : List (Option Ref)}
    (unmerged : mergedValue? store phi incomings = none) :
    ∃ first ∈ incomings, ∃ second ∈ incomings,
      first ≠ second ∧ first ≠ some phi ∧ second ≠ some phi := by
  by_contra agree
  have agree {first second : Option Ref} (member : first ∈ incomings) (member' : second ∈ incomings)
      (notPhi : first ≠ some phi) (notPhi' : second ≠ some phi) : first = second := by
    by_contra different
    exact agree ⟨first, member, second, member', different, notPhi, notPhi'⟩
  obtain ⟨value, same⟩ : ∃ value, ∀ incoming ∈ incomings,
      incoming = some phi ∨ incoming = value := by
    by_cases alone : ∀ incoming ∈ incomings, incoming = some phi
    · exact ⟨none, fun incoming member => .inl (alone incoming member)⟩
    · push Not at alone
      obtain ⟨value, member, notPhi⟩ := alone
      refine ⟨value, fun incoming member' => ?_⟩
      by_cases isPhi : incoming = some phi
      · exact .inl isPhi
      · exact .inr (agree member' member isPhi notPhi)
  have start : ({} : Merged).sawUndefined = true → store.isUndefinedOption value = true :=
    fun wrong => by cases wrong
  obtain ⟨merged, folded, holds, undefined⟩ := Merged.exists_of_agree same (.inl rfl) start
  have invariant : merged.sawUndefined = true → store.isInvariant merged.value = true := by
    intro saw
    rcases holds with none | same
    · rw [none]
      rfl
    · rw [same]
      exact isInvariant_of_isUndefinedOption (undefined saw)
  simp only [mergedValue?, folded, Option.bind_eq_bind, Option.bind_some] at unmerged
  split at unmerged
  · rename_i rejected
    rw [Bool.and_eq_true, Bool.not_eq_true'] at rejected
    rw [invariant rejected.1] at rejected
    cases rejected.2
  · cases unmerged

theorem merges_of_mergedValue?
    {incomings : List (Option Ref × Option Ref)}
    (filled : store.Filled block phi)
    (paired : store.incomings? phi = some incomings)
    (unmerged : mergedValue? store phi (incomings.map (·.1)) = none) :
    store.Merges block phi := by
  obtain ⟨sources, distinct, opcode, predecessors⟩ := filled.sources
  obtain ⟨_, listed, _, listed', different, notPhi, notPhi'⟩ := exists_ne_of_mergedValue? unmerged
  obtain ⟨⟨first, place⟩, member, rfl⟩ := List.mem_map.1 listed
  obtain ⟨⟨second, place'⟩, member', rfl⟩ := List.mem_map.1 listed'
  obtain ⟨entry, found, zipped⟩ := Option.bind_eq_some_iff.1 paired
  dsimp only at zipped
  split at zipped
  · cases zipped
  · rename_i long
    have blocks : entry.opcode.incomingBlocks = sources.map some := by
      have same : entry.opcode = .phi (sources.map some) := by simpa [opcode?, found] using opcode
      rw [same]
      rfl
    rw [blocks] at zipped long
    have places : incomings.map (·.2) = sources.map some := by
      rw [← Option.some.inj zipped]
      exact List.map_snd_zip (by simpa [Instruction.values] using long)
    have named {incoming place : Option Ref} (member : (incoming, place) ∈ incomings) :
        ∃ source, place = some source ∧ source ∈ sources := by
      have listed : place ∈ incomings.map (·.2) :=
        List.mem_map.2 ⟨(incoming, place), member, rfl⟩
      rw [places] at listed
      obtain ⟨source, known, rfl⟩ := List.mem_map.1 listed
      exact ⟨source, rfl, known⟩
    obtain ⟨source, rfl, known⟩ := named member
    obtain ⟨source', rfl, known'⟩ := named member'
    refine ⟨incomings, first, source, second, source', paired, member, predecessors source known,
      member', predecessors source' known', ?_, different, notPhi, notPhi'⟩
    rintro rfl
    have once : (incomings.map (·.2)).Nodup := by
      rw [places]
      exact distinct.map (Option.some_injective Ref)
    exact different (congrArg Prod.fst (List.inj_on_of_nodup_map once member member' rfl))

/-! ## Removing redundant phis -/

/-- A phi stays for a reason: it is not linked, or it merges values that differ. -/
def Stays (store : Store) (phi : Ref) : Prop :=
  store.blockOf? phi = none ∨ ∃ incomings, store.incomings? phi = some incomings ∧
    mergedValue? store phi (incomings.map (·.1)) = none

theorem continues_removeRedundantPhi
    (coherent : store.Coherent)
    (regular : store.Regular)
    {removed : Bool}
    (isPhi : store.isPhi phi = true)
    (gives : Gives (removeRedundantPhi phi) store removed left) :
    store.Continues [] left ∧ (removed = false → left = store ∧ Stays store phi) := by
  have notTerminator := isTerminator_of_isPhi isPhi
  have replaces {value : Ref} {between : Store} (continues : store.Continues [] between)
      (gives : Gives (do
        replaceUses phi (some value)
        Edit.remove phi
        return true) between removed left) :
      store.Continues [] left ∧ (removed = false → left = store ∧ Stays store phi) := by
    have notBlock : between.isBlock phi = false := by
      obtain ⟨opcode, found, -⟩ := (Option.any_eq_true _ _).1 isPhi
      rw [continues.trims.ages.isBlock, isBlock_of_opcode? found]
    obtain ⟨_, _, replaces, gives⟩ := gives_bind_iff.1 gives
    obtain ⟨_, _, removes, returned⟩ := gives_bind_iff.1 gives
    obtain ⟨rfl, rfl⟩ := gives_pure_iff.1 returned
    have continues := continues.trans_nil
      (continues.trims.coherent.continues_replaceUses notBlock replaces)
    have notTerminator := continues.trims.not_isTerminator notTerminator
    exact ⟨continues.trans_nil (continues.trims.coherent.continues_remove notTerminator removes),
      fun wrong => by cases wrong⟩
  unfold removeRedundantPhi at gives
  obtain ⟨entry, found, gives⟩ := gives_instruction_bind_iff.1 gives
  split at gives
  · rename_i unlinked
    obtain ⟨rfl, rfl⟩ := gives_pure_iff.1 gives
    refine ⟨.refl coherent, fun _ => ⟨rfl, .inl ?_⟩⟩
    simpa [Store.blockOf?, found] using unlinked
  · replace gives := gives_see_bind_iff.1 gives
    split at gives
    · obtain ⟨_, _, removes, returned⟩ := gives_bind_iff.1 gives
      obtain ⟨rfl, rfl⟩ := gives_pure_iff.1 returned
      exact ⟨coherent.continues_remove notTerminator removes, fun wrong => by cases wrong⟩
    · replace gives := gives_see_bind_iff.1 gives
      obtain ⟨incomings, paired, gives⟩ := gives_demand_bind_iff.1 gives
      replace gives := gives_see_bind_iff.1 gives
      split at gives
      · rename_i unmerged
        obtain ⟨rfl, rfl⟩ := gives_pure_iff.1 gives
        exact ⟨.refl coherent, fun _ => ⟨rfl, .inr ⟨incomings, paired, unmerged⟩⟩⟩
      · dsimp only at gives
        split at gives
        · exact replaces (.refl coherent) gives
        · replace gives := gives_see_bind_iff.1 gives
          obtain ⟨module, -, gives⟩ := gives_demand_bind_iff.1 gives
          replace gives := gives_see_bind_iff.1 gives
          obtain ⟨value, between, made, gives⟩ := gives_bind_iff.1 gives
          obtain ⟨-, interns⟩ := regular.interns_undefined made
          exact replaces (interns.continues ((undefined_keeps _ _).of_gives made coherent).1) gives

theorem continues_removeRedundantPhis
    (coherent : store.Coherent)
    (regular : store.Regular)
    {removed : Bool}
    (isPhi : ∀ phi ∈ phis, store.isPhi phi = true)
    (gives : Gives (removeRedundantPhis phis) store removed left) :
    store.Continues [] left ∧ (removed = false → left = store ∧ ∀ phi ∈ phis, Stays store phi) := by
  induction phis generalizing store removed with
  | nil =>
      obtain ⟨rfl, rfl⟩ := gives_pure_iff.1 gives
      exact ⟨.refl coherent, fun _ => ⟨rfl, fun _ none => by cases none⟩⟩
  | cons phi rest induction =>
      obtain ⟨here, later⟩ := List.forall_mem_cons.1 isPhi
      obtain ⟨first, between, removes, gives⟩ := gives_bind_iff.1 gives
      obtain ⟨second, last, others, returned⟩ := gives_bind_iff.1 gives
      obtain ⟨rfl, rfl⟩ := gives_pure_iff.1 returned
      obtain ⟨continues, kept⟩ := continues_removeRedundantPhi coherent regular here removes
      have trims := continues.trims
      obtain ⟨continues', kept'⟩ := induction trims.coherent (trims.regular regular)
        (fun phi member => trims.isPhi (later phi member)) others
      refine ⟨continues.trans_nil continues', fun nothing => ?_⟩
      rw [Bool.or_eq_false_iff] at nothing
      obtain ⟨rfl, stays⟩ := kept nothing.1
      obtain ⟨rfl, stays'⟩ := kept' nothing.2
      exact ⟨rfl, List.forall_mem_cons.2 ⟨stays, stays'⟩⟩

/-- When no pass removes a phi any more, every phi stays for a reason. -/
theorem continues_simplifyPhis
    (coherent : store.Coherent)
    (regular : store.Regular)
    {bound : Nat}
    {answer : Unit}
    (isPhi : ∀ phi ∈ phis, store.isPhi phi = true)
    (gives : Gives (simplifyPhis phis bound) store answer left) :
    store.Continues [] left ∧ ∀ phi ∈ phis, Stays left phi := by
  induction bound generalizing store with
  | zero => exact absurd gives not_gives_endless
  | succ bound induction =>
      obtain ⟨removed, between, removes, gives⟩ := gives_bind_iff.1 gives
      obtain ⟨continues, kept⟩ := continues_removeRedundantPhis coherent regular isPhi removes
      have trims := continues.trims
      split at gives
      · obtain ⟨continues', stays⟩ := induction trims.coherent (trims.regular regular)
          (fun phi member => trims.isPhi (isPhi phi member)) gives
        exact ⟨continues.trans_nil continues', stays⟩
      · rename_i nothing
        obtain ⟨-, rfl⟩ := gives_pure_iff.1 gives
        obtain ⟨rfl, stays⟩ := kept (by simpa using nothing)
        exact ⟨continues, stays⟩

/-! ## Promotion -/

theorem isBlock_of_mem_treeOf
    (coherent : store.Coherent)
    (member : block ∈ (store.treeOf function).blocks) :
    store.isBlock block = true := by
  rw [blocks_treeOf] at member
  have inOrder : block ∈ store.reversePostOrder function := by simpa using member
  exact ((mem_reversePostOrder_iff_reached coherent).1 inOrder).isBlock coherent

/-- Promoting the chosen variables goes on with the phis that are placed. -/
theorem continues_of_stages
    {chosen : List Accesses}
    {state : Forwarding}
    {forwarded middle : Store}
    {report'' : Promotion}
    {placed : List Ref}
    (coherent : store.Coherent)
    (regular : store.Regular)
    (selected : ∀ accesses ∈ chosen, Selected store accesses)
    (forwards : Gives ((blocksInOrder store function).foldlM forwardBlock { accesses := chosen })
      store state forwarded)
    (removes : Gives ((state.accesses.filter (·.reads.isEmpty)).foldlM removeVariable report)
      forwarded report' middle)
    (promotes : Gives ((state.accesses.filter (!·.reads.isEmpty)).foldlM
      (promoteVariable (middle.treeOf function)) (report', [])) middle (report'', placed) left) :
    store.Continues placed left ∧ ∀ phi ∈ placed, ∃ block, left.Filled block phi := by
  obtain ⟨continues, noted⟩ := continues_forward coherent
    (fun accesses member => (selected accesses member).noted) forwards
  obtain ⟨continues', noted⟩ := continues_removeVariables continues.trims.coherent noted
    (fun _ => List.mem_of_mem_filter) removes
  have continues := continues.trans_nil continues'
  have trims := continues.trims
  obtain ⟨new, equal, continues', filled⟩ := continues_promoteVariables trims.coherent
    (trims.regular regular)
    (fun accesses member => noted accesses (List.mem_of_mem_filter member))
    (fun block => isBlock_of_mem_treeOf trims.coherent) (fun _ none => by cases none) promotes
  obtain rfl : placed = new := equal
  exact ⟨continues.trans_nil continues', filled⟩

/-- Promotion goes on with the phis that it placed, and those that are left stay for a reason. -/
theorem continues_promote
    (coherent : store.Coherent)
    (regular : store.Regular)
    (gives : Gives (promote function) store report left) :
    ∃ placed, store.Continues placed left ∧
      report.phis = placed.filter (fun phi => (left.blockOf? phi).isSome) ∧
      ∀ phi ∈ placed, Stays left phi ∧ ∃ block, left.Filled block phi := by
  obtain ⟨transposition, origin, chosen, transposes, chooses, stages⟩ := stages_of_promote gives
  have continues := continues_transpose coherent transposes
  obtain ⟨-, -, selected⟩ := ensures_promotable.2 _ _ chooses
  rcases stages with ⟨-, rfl, rfl⟩ | ⟨state, between, report', middle, report'', placed, last,
    answer, forwards, removes, promotes, simplifies, rfl⟩
  · exact ⟨[], continues, rfl, fun _ none => by cases none⟩
  · obtain ⟨continues', filled⟩ := continues_of_stages continues.trims.coherent
      (continues.trims.regular regular) selected forwards removes promotes
    have continues := continues.trans_nil continues'
    have trims := continues.trims
    obtain ⟨continues'', stays⟩ := continues_simplifyPhis trims.coherent (trims.regular regular)
      (fun phi member => (filled phi member).choose_spec.isPhi) simplifies
    refine ⟨placed, (continues.trans continues'').mono (by simp), rfl, fun phi member => ?_⟩
    obtain ⟨block, filled⟩ := filled phi member
    exact ⟨stays phi member, block,
      filled.continues trims.coherent continues'' List.not_mem_nil⟩

/-- A phi that promotion leaves in a block was there before or merges two values. -/
theorem promoted_phis
    (coherent : store.Coherent)
    (regular : store.Regular)
    (gives : Gives (promote function) store report left)
    (isPhi : left.isPhi phi = true)
    (linked : left.blockOf? phi = some block) :
    (store.isPhi phi = true ∧ store.blockOf? phi = some block) ∨
      (phi ∈ report.phis ∧ left.Merges block phi) := by
  obtain ⟨placed, continues, phis, each⟩ := continues_promote coherent regular gives
  cases found : store.value? phi with
  | some value =>
      have present := Option.isSome_of_eq_some found
      refine .inl ⟨?_, continues.trims.linked present linked⟩
      rcases continues.trims.kind present with same | ⟨isPhi, -⟩
      · rwa [Store.isPhi, ← same]
      · exact isPhi
  | none =>
      have member := continues.fresh found isPhi
      obtain ⟨stays, home, filled⟩ := each phi member
      obtain rfl := filled.home linked
      refine .inr ⟨?_, ?_⟩
      · rw [phis, List.mem_filter, linked]
        exact ⟨member, rfl⟩
      · rcases stays with unlinked | ⟨incomings, paired, unmerged⟩
        · cases unlinked.symm.trans linked
        · exact merges_of_mergedValue? filled paired unmerged

end Pass

namespace Session

/--
A phi that promotion leaves in a block was there before, or promotion reports it and it
merges two different values from two different predecessors of the block.  A block with
fewer predecessors holds no other phis than before, so the first block of a function
gets one only if two blocks lead back to it.
-/
theorem promote_phis
    {operations : List Operation}
    {function : Ref}
    {report : Pass.Promotion}
    {left : Store}
    (gives : Gives (Pass.promote function) (after operations).store report left) :
    (∀ block, ∀ phi ∈ left.instructions block, left.isPhi phi = true →
      (phi ∈ (after operations).store.instructions block ∧
          (after operations).store.isPhi phi = true) ∨
        (phi ∈ report.phis ∧ left.Merges block phi)) ∧
      ∀ block, (left.predecessors block).length ≤ 1 →
        ∀ phi ∈ left.instructions block, left.isPhi phi = true →
          phi ∈ (after operations).store.instructions block ∧
            (after operations).store.isPhi phi = true := by
  have coherent := (after_coherent operations).store
  obtain ⟨_, continues, -⟩ := Pass.continues_promote coherent (after_regular operations) gives
  have each : ∀ block, ∀ phi ∈ left.instructions block, left.isPhi phi = true →
      (phi ∈ (after operations).store.instructions block ∧
          (after operations).store.isPhi phi = true) ∨
        (phi ∈ report.phis ∧ left.Merges block phi) := by
    intro block phi member isPhi
    have linked := (continues.trims.coherent.mem_members block phi).1 member
    rcases Pass.promoted_phis coherent (after_regular operations) gives isPhi linked with
      ⟨wasPhi, wasLinked⟩ | new
    · exact .inl ⟨(coherent.mem_members block phi).2 wasLinked, wasPhi⟩
    · exact .inr new
  refine ⟨each, fun block few phi member isPhi => ?_⟩
  rcases each block phi member isPhi with old | ⟨-, _, _, source, _, source', -, -, here, -, here',
    different, -⟩
  · exact old
  · have pair : [source, source'].Nodup := by simpa using different
    have inside : [source, source'] ⊆ left.predecessors block := by
      simp [here, here']
    have two := (List.subperm_of_subset pair inside).length_le
    exact absurd (two.trans few) (by simp)

/-- Two blocks that lead back to the first block, each of which writes what is read there. -/
def revolving : List Operation :=
  [.edit (.addModule "revolving"),
    .edit (.createFunction 0 .callable none),
    .edit (.createBody ⟨0⟩),
    .edit (.createBlock ⟨0⟩),
    .edit (.createBlock ⟨0⟩),
    .edit (.constantBool 0 false),
    .edit (.constantBool 0 true),
    .moveToEnd ⟨1⟩, .alloca (some (.scalar ⟨0, 0, "bool"⟩ .boolean)) .local,
    .load (some (.scalar ⟨0, 0, "bool"⟩ .boolean)) (some ⟨6⟩),
    .condBranch (some ⟨7⟩) (some ⟨2⟩) (some ⟨3⟩),
    .moveToEnd ⟨2⟩, .store (some ⟨6⟩) (some ⟨4⟩),
    .emit .branch none [some ⟨1⟩] (.refl true),
    .moveToEnd ⟨3⟩, .store (some ⟨6⟩) (some ⟨5⟩),
    .emit .branch none [some ⟨1⟩] (.refl true)]

theorem promote_phis_revolving :
    ∃ report left, Gives (Pass.promote ⟨0⟩) (after revolving).store report left ∧
      ⟨13⟩ ∈ left.instructions ⟨1⟩ ∧ ⟨13⟩ ∈ report.phis ∧ left.Merges ⟨1⟩ ⟨13⟩ := by
  have runs : (match Edit.outcome (Pass.promote ⟨0⟩) (after revolving).store with
      | (.ok _, left) => decide (⟨13⟩ ∈ left.instructions ⟨1⟩) && left.isPhi ⟨13⟩
      | _ => false) = true := by
    decide +kernel
  have absent : ⟨13⟩ ∉ (after revolving).store.instructions ⟨1⟩ := by decide +kernel
  split at runs
  · rename_i report left gives
    rw [Bool.and_eq_true, decide_eq_true_eq] at runs
    obtain ⟨each, -⟩ := promote_phis gives
    have merges := (each ⟨1⟩ ⟨13⟩ runs.1 runs.2).resolve_left fun old => absent old.1
    exact ⟨report, left, gives, runs.1, merges⟩
  · cases runs

end Session

end ShaderIR

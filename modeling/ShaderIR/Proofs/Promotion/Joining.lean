import ShaderIR.Proofs.Promotion.Completeness
import ShaderIR.Proofs.Promotion.Continuing
import ShaderIR.Proofs.Promotion.LiveIn
import ShaderIR.Proofs.Promotion.Sparing

/-!
# Phis make the walk up the dominator tree exact

A variable gets phis on the iterated dominance frontier of the blocks that write it, at those
blocks where it is live on entry.  So wherever it is live and has got no phi, the last block
on a path that defines it, by a write or a phi, is the same one on every path: the nearest of
those that strictly dominate the block.  That is the one that the walk up the tree comes to.
-/

namespace ShaderIR

open Store Edit

open Pass (Accesses Renaming)

namespace Store

/-- A block writes a variable or has got a phi for it. -/
def Renews (store : Store) (address : Ref) (phis : List (Ref × Ref)) (block : Ref) : Prop :=
  (∃ ref ∈ store.instructions block, store.Touches .store address ref) ∨ block ∈ phis.map (·.1)

theorem SameWays.nearest_iff
    {store left : Store}
    {function block dominator : Ref}
    {defines : Ref → Prop}
    (ways : store.SameWays function left) :
    left.Nearest function defines dominator block ↔
      store.Nearest function defines dominator block := by
  constructor
  · rintro ⟨definition, strict, nearest⟩
    exact ⟨definition, ways.strictlyDominates_iff.1 strict, fun other defined above =>
      ways.dominates_iff.1 (nearest other defined (ways.strictlyDominates_iff.2 above))⟩
  · rintro ⟨definition, strict, nearest⟩
    exact ⟨definition, ways.strictlyDominates_iff.2 strict, fun other defined above =>
      ways.dominates_iff.2 (nearest other defined (ways.strictlyDominates_iff.1 above))⟩

theorem SameWays.ascends
    {store left : Store}
    {function block : Ref}
    {walk : List Ref}
    (ways : store.SameWays function left)
    (ascends : store.Ascends function block walk) :
    left.Ascends function block walk where
  mem_iff := fun dominator =>
    (ascends.mem_iff dominator).trans ways.strictlyDominates_iff.symm
  order := ascends.order.imp fun dominates => ways.dominates_iff.2 dominates

end Store

namespace Pass

/-! ## Where phis are placed -/

section Placing

variable {store left : Store} {tree : DominatorTree} {live stack : List Ref} {type : Option Ty}
  {bound : Nat} {state state' : Renaming}

/--
Blocks that got a phi keep it, and the live blocks on the frontier of those stacked and of
those that get a phi have got one in the end.
-/
theorem keys_of_gives_placePhis
    (gives : Gives (placePhis tree live type bound stack state) store state' left) :
    state.phis.map (·.1) ⊆ state'.phis.map (·.1) ∧
      ∀ block, block ∈ stack ∨ block ∈ state'.phis.map (·.1) ∧ block ∉ state.phis.map (·.1) →
        ∀ target ∈ tree.frontier block, target ∈ live → target ∈ state'.phis.map (·.1) := by
  induction bound generalizing stack state store with
  | zero => exact absurd gives not_gives_endless
  | succ bound induction =>
      cases stack with
      | nil =>
          obtain ⟨rfl, rfl⟩ := gives_pure_iff.1 gives
          refine ⟨List.Subset.refl _, fun block stacked => ?_⟩
          rcases stacked with none | ⟨placed, unplaced⟩
          · cases none
          · exact absurd placed unplaced
      | cons first rest =>
          obtain ⟨between, _, placed, others⟩ := gives_bind_iff.1 gives
          have keys := keys_of_gives_placeAll placed
          obtain ⟨kept, closed⟩ := induction others
          rw [keys] at kept
          obtain ⟨before, new⟩ := List.append_subset.1 kept
          refine ⟨before, fun block stacked target frontier isLive => ?_⟩
          by_cases here : block = first
          · subst here
            by_cases known : target ∈ state.phis.map (·.1)
            · exact before known
            · refine new (List.mem_filter.2 ⟨frontier, ?_⟩)
              rw [Bool.and_eq_true, List.contains_iff_mem, Option.isNone_iff_eq_none,
                lookup_eq_none_iff_notMem]
              exact ⟨isLive, known⟩
          · refine closed block ?_ target frontier isLive
            rw [keys, List.mem_append, List.mem_append, List.mem_reverse, not_or]
            rcases stacked with stacked | ⟨placed, unplaced⟩
            · exact .inl (.inr ((List.mem_cons.1 stacked).resolve_left here))
            · by_cases now : block ∈ (tree.frontier first).filter fun target =>
                  live.contains target && (state.phis.lookup target).isNone
              · exact .inl (.inl now)
              · exact .inr ⟨placed, unplaced, now⟩

end Placing

/-! ## A variable that is promoted next -/

/--
Promotion has come to a variable: the memory accesses are reshaped, values are forwarded inside
blocks, the variables without reads are removed and those in front of it are promoted.
-/
inductive Arrives (function : Ref) (store : Store) (tree : DominatorTree) (accesses : Accesses)
    (before : Store) : Prop
  | intro {transposition : Transposition} {between : Store} {chosen : List Accesses}
      {state : Forwarding} {forwarded : Store} {report report' : Promotion} {middle : Store}
      {promoted others : List Accesses} {progress : Promotion × List Ref}
      (transposes : Gives (transpose function) store transposition between)
      (chooses : Gives (promotable (between.traverse function)) between chosen between)
      (forwards : Gives ((blocksInOrder between function).foldlM forwardBlock
        { accesses := chosen }) between state forwarded)
      (removes : Gives ((state.accesses.filter (·.reads.isEmpty)).foldlM removeVariable report)
        forwarded report' middle)
      (computes : tree = middle.treeOf function)
      (kept : state.accesses.filter (!·.reads.isEmpty) = promoted ++ accesses :: others)
      (promotes : Gives (promoted.foldlM (promoteVariable tree) (report', [])) middle progress
        before)

/-- Promotion comes to each of the variables that it reports, but for those without reads. -/
theorem arrives_of_promote
    {function : Ref}
    {store left : Store}
    {report : Promotion}
    (gives : Gives (promote function) store report left) :
    ∃ unread kept : List Accesses, report.promoted = (unread ++ kept).map (·.address) ∧
      (∀ accesses ∈ unread, accesses.reads = []) ∧
      ∀ accesses ∈ kept, ∃ tree before type bound state left,
        Arrives function store tree accesses before ∧
          Gives (placePhis tree (liveIn before accesses) type bound
            (accesses.writers.filter tree.contains).reverse { reads := accesses.reads }) before
            state left := by
  obtain ⟨transposition, between, chosen, transposes, chooses, stages⟩ := stages_of_promote gives
  rcases stages with ⟨-, rfl, -⟩ | ⟨state, forwarded, report', middle, report'', placed, last,
    answer, forwards, removes, promotes, -, rfl⟩
  · exact ⟨[], [], rfl, nofun, nofun⟩
  · have unread := reports_of_gives_foldlM (·.promoted) promoted_of_gives_removeVariable removes
    have read := reports_of_gives_foldlM (fun progress => progress.1.promoted)
      promoted_of_gives_promoteVariable promotes
    dsimp only at unread read
    refine ⟨state.accesses.filter (·.reads.isEmpty), state.accesses.filter (!·.reads.isEmpty), ?_,
      fun accesses member => ?_, fun accesses member => ?_⟩
    · rw [read, unread, List.nil_append, List.map_append]
    · exact List.isEmpty_iff.1 (List.mem_filter.1 member).2
    · obtain ⟨promoted, others, kept⟩ := List.append_of_mem member
      rw [kept, List.foldlM_append] at promotes
      obtain ⟨progress, before, firsts, promotes⟩ := gives_bind_iff.1 promotes
      rw [List.foldlM_cons] at promotes
      obtain ⟨_, _, here, -⟩ := gives_bind_iff.1 promotes
      replace here := gives_see_bind_iff.1 (gives_see_bind_iff.1 here)
      obtain ⟨placing, left, places, -⟩ := gives_bind_iff.1 here
      have arrives : Arrives function store (middle.treeOf function) accesses before :=
        .intro transposes chooses forwards removes rfl kept firsts
      exact ⟨_, before, _, _, placing, left, arrives, places⟩

section Arrived

variable {store before : Store} {tree : DominatorTree} {accesses : Accesses} {function : Ref}
  {module : Nat}

/-- When promotion comes to a variable, it is charted, and control moves as it ever did. -/
theorem Arrives.charting
    (arrives : Arrives function store tree accesses before)
    (coherent : store.Coherent)
    (regular : store.Regular)
    (housed : store.Housed)
    (accepted : store.validate? module = some [])
    (listed : function ∈ store.functions module) :
    ∃ origin addresses others, tree = origin.treeOf function ∧ origin.Coherent ∧
      origin.Confined function ∧ store.SameWays function origin ∧
      origin.SameWays function before ∧ before.Confined function ∧
      Charting function addresses (accesses :: others) before := by
  have confined := Validation.confined_of_validate coherent accepted listed
  cases arrives with
  | @intro _ between chosen state _ _ _ origin promoted others progress transposes chooses
      forwards removes computes kept promotes =>
    have continues := continues_transpose coherent transposes
    have narrows := (reshaped_transpose coherent accepted listed transposes).narrows
    have ways := narrows.sameWays continues coherent confined
    have trims := continues.trims
    have confined := narrows.confined confined
    obtain ⟨continues, restrains, charting, noted⟩ := charting_of_stages trims.coherent
      (trims.regular regular) (trims.ages.keepsHousing housed) chooses forwards removes
    have ways' := continues.sameWays restrains trims.coherent confined
    have regular := continues.trims.regular (trims.regular regular)
    have confined := ways'.confined continues confined
    have owned : ∀ block ∈ tree.blocks, origin.blockFunction? block = some function := by
      intro block inside
      rw [computes, blocks_treeOf, List.mem_toArray] at inside
      exact confined.owned block ((mem_reversePostOrder_iff_reached charting.coherent).1 inside)
    rw [kept] at charting
    obtain ⟨_, _, continues, -⟩ := continues_promoteVariables charting.coherent regular
      (fun accesses member => (noted accesses (List.mem_of_mem_filter (kept ▸
        List.mem_append_left _ member))).1)
      (fun block inside => isBlock_iff_blockFunction?.2 (Option.isSome_of_eq_some
        (owned block inside))) (fun _ none => by cases none) promotes
    obtain ⟨restrains, charting'⟩ := charting.promoteVariables owned promotes
    have ways'' := continues.sameWays restrains charting.coherent confined
    exact ⟨origin, _, others, computes, charting.coherent, confined, ways.trans ways', ways'',
      ways''.confined continues confined, charting'⟩

variable {origin left : Store} {addresses live stack : List Ref} {others : List Accesses}
  {type : Option Ty} {bound : Nat} {state : Renaming} {body : Ref}

/-- The phis of a variable are joins of its writes and phis, where it is live on entry. -/
theorem Charting.joined
    (charting : Charting function addresses (accesses :: others) before)
    (coherent : origin.Coherent)
    (confined : origin.Confined function)
    (ways : origin.SameWays function before)
    (confined' : before.Confined function)
    (hasBody : origin.body? function = some body)
    (places : Gives (placePhis (origin.treeOf function) (liveIn before accesses) type bound
      (accesses.writers.filter (origin.treeOf function).contains).reverse
      { reads := accesses.reads }) before state left) :
    before.Joined function (before.Renews accesses.address state.phis)
      (· ∈ state.phis.map (·.1)) (before.ReadsAhead function accesses.address) where
  join := by
    intro definition source target defines reached dominates edge ends live
    have charts := charting.charts accesses List.mem_cons_self
    have reached' := reached.of_dominates dominates
    refine (keys_of_gives_placePhis places).2 definition ?_ target ?_ ?_
    · rcases defines with written | placed
      · have writer := (charts.mem_writers_iff (confined'.owned definition reached')).2 written
        exact .inl (List.mem_reverse.2 (List.mem_filter.2
          ⟨writer, (contains_treeOf coherent).2 (ways.reached_iff.1 reached')⟩))
      · exact .inr ⟨placed, List.not_mem_nil⟩
    · have reached := ways.reached_iff.1 reached
      have edge := (ways.mem_successors_iff reached).1 edge
      refine (confined.mem_frontier_treeOf_iff coherent hasBody).2
        ⟨ways.reached_iff.1 reached', reached.tail edge, ?_, source, ?_, reached,
          ways.dominates_iff.1 dominates⟩
      · exact fun strict => ends (ways.strictlyDominates_iff.2 strict)
      · exact (confined.mem_predecessors_iff coherent reached (reached.tail edge)).2 edge
    · exact charts.mem_liveIn_of_readsAhead charting.coherent
        (confined'.owned target (reached.tail edge)) live
  definition := .inr
  back := by
    intro source target reached edge undefined live
    refine .onward (fun ref member write => undefined (.inl ⟨ref, member, write⟩)) ⟨edge, ?_⟩ live
    exact confined'.owned target (reached.tail edge)

/-- While reads are replaced, the blocks with a value are those that write it or got a phi. -/
theorem Charting.isSome_outValue?_iff
    {state' : Renaming}
    {done rest : List (Ref × Ref)}
    {current : Store}
    {other : Ref}
    (charting : Charting function addresses (accesses :: others) before)
    (confined : before.Confined function)
    (inTree : ∀ block ∈ tree.blocks, before.Reached function block)
    (places : Gives (placePhis tree live type bound stack { reads := accesses.reads }) before state
      left)
    (split : state.reads = done ++ rest)
    (renames : Gives (renameReads tree accesses done state) left state' current)
    (inside : other ∈ tree.blocks) :
    (outValue? current accesses state' other).isSome = true ↔
      before.Renews accesses.address state.phis other := by
  have owned : ∀ block ∈ tree.blocks, before.blockFunction? block = some function :=
    fun block inside => confined.owned block (inTree block inside)
  have replacing := (charting.replacing owned).placePhis (fun block inside =>
    isBlock_iff_blockFunction?.2 (Option.isSome_of_eq_some (owned block inside))) places
  obtain ⟨replacing, same⟩ :=
    replacing.renameReads (fun read member => split ▸ List.mem_append_left rest member) renames
  rw [replacing.isSome_outValue?_iff inside, same, Store.Renews,
    (charting.charts accesses List.mem_cons_self).mem_writers_iff (owned other inside)]

end Arrived

end Pass

namespace Session

open Pass

/--
After any operations, promoting the variables of a function of an accepted module: when the
phis of a variable are placed, take a block on entry to which the variable is live and that got
none.  On every path from the body to it the last block before it that writes the variable or
has a phi is the nearest one of those that strictly dominate it, and if none of these does so,
there is none on any path.  So while the reads are replaced, the walk up the dominator tree
finds the value of the last definition on whatever path is taken.
-/
theorem promote_joins
    {operations : List Operation}
    {module : Nat}
    {function : Ref}
    (accepted : (after operations).store.validate? module = some [])
    (listed : function ∈ (after operations).store.functions module)
    {tree : DominatorTree}
    {accesses : Accesses}
    {before : Store}
    (arrives : Arrives function (after operations).store tree accesses before)
    {type : Option Ty}
    {bound : Nat}
    {state : Renaming}
    {left : Store}
    (places : Gives (placePhis tree (liveIn before accesses) type bound
      (accesses.writers.filter tree.contains).reverse { reads := accesses.reads }) before state
      left)
    {block : Ref}
    (live : before.ReadsAhead function accesses.address block)
    (without : block ∉ state.phis.map (·.1))
    {body : Ref}
    (hasBody : (after operations).store.body? function = some body)
    {front : List Ref}
    (path : (after operations).store.Path body block (front ++ [block])) :
    (∀ last, LastOf (before.Renews accesses.address state.phis) front last ↔
        (after operations).store.Nearest function (before.Renews accesses.address state.phis)
          last block) ∧
      ((∀ dominator, (after operations).store.StrictlyDominates function dominator block →
          ¬before.Renews accesses.address state.phis dominator) →
        ∀ other ∈ front, ¬before.Renews accesses.address state.phis other) ∧
      ∀ done rest state' current, state.reads = done ++ rest →
        Gives (renameReads tree accesses done state) left state' current →
        (((tree.parent? block).map tree.path).getD []).findSome?
            (outValue? current accesses state') =
          front.reverse.findSome? (outValue? current accesses state') := by
  obtain ⟨origin, addresses, others, rfl, coherent, confined, toOrigin, ways, confined',
    charting⟩ := arrives.charting (after_coherent operations).store (after_regular operations)
      (after_housed operations) accepted listed
  have whole := toOrigin.trans ways
  have hasOrigin := toOrigin.body?.trans hasBody
  have hasBefore := ways.body?.trans hasOrigin
  have path := (whole.path_iff hasBody).2 path
  have joined := charting.joined coherent confined ways confined' hasOrigin places
  have lasts : ∀ last, LastOf (before.Renews accesses.address state.phis) front last ↔
      (after operations).store.Nearest function (before.Renews accesses.address state.phis) last
        block :=
    fun _ => (joined.lastOf_iff hasBefore path live without).trans whole.nearest_iff
  refine ⟨lasts, fun none other member defines => ?_,
    fun done rest state' current split renames => ?_⟩
  · obtain ⟨last, isLast⟩ := exists_lastOf member defines
    have nearest := (lasts last).1 isLast
    exact none last nearest.strict nearest.definition
  · have inTree (other : Ref) : other ∈ (origin.treeOf function).blocks ↔
        before.Reached function other := by
      rw [blocks_treeOf, List.mem_toArray, mem_reversePostOrder_iff_reached coherent,
        ways.reached_iff]
    have ascends := confined.ascends coherent hasOrigin
      (ways.reached_iff.1 (path.reached hasBefore))
    refine joined.findSome?_eq (ways.ascends ascends) hasBefore (fun other reached => ?_) path live
      without
    exact charting.isSome_outValue?_iff confined' (fun other => (inTree other).1) places split
      renames ((inTree other).2 reached)

/--
A variable that is written in front of a fork and once more on one of its sides.  It is read in
the block behind the one in which the sides meet again.
-/
def rejoining : List Operation :=
  [.edit (.addModule "rejoining"),
    .edit (.createFunction 0 .callable none),
    .edit (.createBody ⟨0⟩),
    .edit (.createBlock ⟨0⟩),
    .edit (.createBlock ⟨0⟩),
    .edit (.createBlock ⟨0⟩),
    .edit (.createBlock ⟨0⟩),
    .edit (.constantBool 0 false),
    .edit (.constantBool 0 true),
    .moveToEnd ⟨1⟩, .alloca (some (.scalar ⟨0, 0, "bool"⟩ .boolean)) .local,
    .store (some ⟨8⟩) (some ⟨6⟩),
    .condBranch (some ⟨6⟩) (some ⟨2⟩) (some ⟨3⟩),
    .moveToEnd ⟨2⟩, .store (some ⟨8⟩) (some ⟨7⟩),
    .emit .branch none [some ⟨4⟩] (.refl true),
    .moveToEnd ⟨3⟩, .emit .branch none [some ⟨4⟩] (.refl true),
    .moveToEnd ⟨4⟩, .emit .branch none [some ⟨5⟩] (.refl true),
    .moveToEnd ⟨5⟩, .load (some (.scalar ⟨0, 0, "bool"⟩ .boolean)) (some ⟨8⟩),
    .emit .ret none [] (.refl true)]

/-- Both ways to the block that reads end with the phi where they come together. -/
theorem promote_joins_rejoining :
    (after rejoining).store.validate? 0 = some [] ∧
    ⟨0⟩ ∈ (after rejoining).store.functions 0 ∧
    (after rejoining).store.Path ⟨1⟩ ⟨5⟩ [⟨1⟩, ⟨2⟩, ⟨4⟩, ⟨5⟩] ∧
    (after rejoining).store.Path ⟨1⟩ ⟨5⟩ [⟨1⟩, ⟨3⟩, ⟨4⟩, ⟨5⟩] ∧
    ∃ tree accesses before state left,
      Arrives ⟨0⟩ (after rejoining).store tree accesses before ∧
        Gives (placePhis tree (liveIn before accesses) (before.typeOf accesses.address) 10
          (accesses.writers.filter tree.contains).reverse { reads := accesses.reads }) before
          state left ∧
        before.ReadsAhead ⟨0⟩ accesses.address ⟨5⟩ ∧ state.phis = [(⟨4⟩, ⟨17⟩)] ∧
        (∀ last, LastOf (before.Renews accesses.address state.phis) [⟨1⟩, ⟨2⟩, ⟨4⟩] last ↔
          LastOf (before.Renews accesses.address state.phis) [⟨1⟩, ⟨3⟩, ⟨4⟩] last) ∧
        (((tree.parent? ⟨5⟩).map tree.path).getD []).findSome?
          (outValue? left accesses state) = some (some ⟨17⟩) := by
  have accepted : (after rejoining).store.validate? 0 = some [] := by decide +kernel
  have listed : ⟨0⟩ ∈ (after rejoining).store.functions 0 := by decide +kernel
  have hasBody : (after rejoining).store.body? ⟨0⟩ = some ⟨1⟩ := by decide +kernel
  have through : (after rejoining).store.Path ⟨1⟩ ⟨5⟩ ([⟨1⟩, ⟨2⟩, ⟨4⟩] ++ [⟨5⟩]) :=
    ⟨rfl, rfl, by decide +kernel⟩
  have around : (after rejoining).store.Path ⟨1⟩ ⟨5⟩ ([⟨1⟩, ⟨3⟩, ⟨4⟩] ++ [⟨5⟩]) :=
    ⟨rfl, rfl, by decide +kernel⟩
  have runs : (match outcome (do
        let _ ← transpose ⟨0⟩
        let chosen ← promotable (← see (·.traverse ⟨0⟩))
        let state ← (← see (blocksInOrder · ⟨0⟩)).foldlM forwardBlock { accesses := chosen }
        let _ ← (state.accesses.filter (·.reads.isEmpty)).foldlM removeVariable {}
        let accesses ← demand (state.accesses.filter (!·.reads.isEmpty)).head?
        let before ← see id
        let state ← placePhis (before.treeOf ⟨0⟩) (liveIn before accesses)
          (before.typeOf accesses.address) 10
          (accesses.writers.filter (before.treeOf ⟨0⟩).contains).reverse { reads := accesses.reads }
        return (accesses, before, state)) (after rejoining).store with
      | (.ok (accesses, before, state), left) => decide (
          before.instructions ⟨5⟩ = [] ++ ⟨15⟩ :: [⟨16⟩] ∧
            before.opcode? ⟨15⟩ = some .load ∧
            (before.operands ⟨15⟩).head? = some (some accesses.address) ∧
            state.phis = [(⟨4⟩, ⟨17⟩)] ∧
            ([⟨4⟩, ⟨2⟩, ⟨1⟩] : List Ref).findSome? (outValue? left accesses state) =
              some (some ⟨17⟩))
      | _ => false) = true := by
    decide +kernel
  split at runs <;> [rename_i accesses before state left gives; cases runs]
  obtain ⟨inside, isLoad, head, phis, found⟩ := of_decide_eq_true runs
  obtain ⟨transposition, between, transposes, gives⟩ := gives_bind_iff.1 gives
  replace gives := gives_see_bind_iff.1 gives
  obtain ⟨chosen, _, chooses, gives⟩ := gives_bind_iff.1 gives
  obtain ⟨unchanged, -, -⟩ := ensures_promotable.2 _ _ chooses
  rw [unchanged] at gives chooses
  replace gives := gives_see_bind_iff.1 gives
  obtain ⟨noted, forwarded, forwards, gives⟩ := gives_bind_iff.1 gives
  obtain ⟨report, middle, removes, gives⟩ := gives_bind_iff.1 gives
  obtain ⟨_, first, gives⟩ := gives_demand_bind_iff.1 gives
  replace gives := gives_see_bind_iff.1 gives
  rw [id_eq] at gives
  obtain ⟨_, _, places, returned⟩ := gives_bind_iff.1 gives
  obtain ⟨same, rfl⟩ := gives_pure_iff.1 returned
  cases same
  obtain ⟨others, kept⟩ := List.head?_eq_some_iff.1 first
  have arrives : Arrives ⟨0⟩ (after rejoining).store (before.treeOf ⟨0⟩) accesses before :=
    .intro transposes chooses forwards removes rfl (kept.trans (List.nil_append _).symm) rfl
  have live : before.ReadsAhead ⟨0⟩ accesses.address ⟨5⟩ :=
    .here inside ⟨isLoad, head⟩ fun _ none => by cases none
  have without : ⟨5⟩ ∉ state.phis.map (·.1) := by
    rw [phis]
    decide
  obtain ⟨lasts, -, walks⟩ :=
    promote_joins accepted listed arrives places live without hasBody through
  obtain ⟨lasts', -⟩ :=
    promote_joins accepted listed arrives places live without hasBody around
  refine ⟨accepted, listed, through, around, _, accesses, before, state, left, arrives,
    places, live, phis, fun last => (lasts last).trans (lasts' last).symm, ?_⟩
  exact (walks [] state.reads state left rfl rfl).trans found

end Session

end ShaderIR

import ShaderIR.Proofs.Elimination.Exclusion

/-!
# Blocks that are neutralized

The search for the blocks that lead nowhere goes on until a pass finds no more.
It finds every block of which control only comes to unreachable ends, and when
these are neutral, the search does not find any other block: the ends of the
blocks found so far are unreachable already.
-/

namespace ShaderIR

namespace Store

variable {store left : Store} {function block : Ref}

/-- Control that leaves a block other than to itself always meets an unreachable end. -/
def LeadsNowhere (store : Store) (block : Ref) : Prop :=
  store.endsUnreachable block = true ∨
    (∃ successor ∈ store.successors block, successor ≠ block) ∧
      ∀ successor ∈ store.successors block, successor ≠ block →
        store.endsUnreachable successor = true

/-- An unreachable block of a function that uses a result of a reached block. -/
def DrawsOnReached (store : Store) (function block : Ref) : Prop :=
  store.blockFunction? block = some function ∧ ¬store.Reached function block ∧
    ∃ source ref use, store.Reached function source ∧ ref ∈ store.instructions source ∧
      use ∈ store.usesOf ref ∧ store.blockOf? use.user = some block

theorem Reached.isBlock (reached : store.Reached function block) (coherent : store.Coherent) :
    store.isBlock block = true := by
  obtain ⟨body, hasBody, reaches⟩ := reached
  cases reaches with
  | refl =>
      obtain ⟨entry, found, isBody⟩ := Option.bind_eq_some_iff.1 hasBody
      rw [isBlock_iff_blockFunction?, coherent.bodyOwner found isBody]
      rfl
  | tail _ edge => exact (mem_successors_iff.1 edge).choose_spec.2.2

theorem Tidies.leadsNowhere (tidies : store.Tidies left) :
    left.LeadsNowhere block ↔ store.LeadsNowhere block := by
  simp only [LeadsNowhere, tidies.endsUnreachable, tidies.successors]

theorem Tidies.drawsOnReached
    (tidies : store.Tidies left)
    (coherent : store.Coherent)
    (draws : left.DrawsOnReached function block) :
    store.DrawsOnReached function block := by
  obtain ⟨owner, unreached, source, ref, use, reached, member, used, linked⟩ := draws
  rw [tidies.ages.blockFunction?] at owner
  rw [tidies.reached] at unreached reached
  rw [tidies.instructions] at member
  rw [tidies.blockOf?] at linked
  exact ⟨owner, unreached, source, ref, use, reached, member, tidies.mem_usesOf coherent used,
    linked⟩

end Store

namespace Pass

open Store Edit Elimination

variable {store left : Store} {function block : Ref} {report report' : Elimination}

/-! ## Blocks that lead nowhere -/

theorem leadsNowhere_of (known : List Ref) (nowhere : store.LeadsNowhere block) :
    leadsNowhere store known block = true := by
  unfold leadsNowhere
  rcases nowhere with isEnd | ⟨⟨successor, edge, different⟩, others⟩
  · simp [isEnd]
  · simp only [Bool.or_eq_true, Bool.and_eq_true, List.all_eq_true, List.mem_filter, bne_iff_ne]
    refine .inr ⟨?_, fun other member => .inr (others other member.1 member.2)⟩
    rw [Bool.not_eq_true', List.isEmpty_eq_false_iff_exists_mem]
    exact ⟨successor, List.mem_filter.2 ⟨edge, by simpa using different⟩⟩

/-- Where the blocks known end unreachable, they make no difference. -/
theorem leadsNowhere_iff
    {known : List Ref}
    (ends : ∀ other ∈ known, store.endsUnreachable other = true) :
    leadsNowhere store known block = true ↔ store.LeadsNowhere block := by
  refine ⟨fun nowhere => ?_, leadsNowhere_of known⟩
  unfold leadsNowhere at nowhere
  rcases Bool.or_eq_true_iff.1 nowhere with isEnd | others
  · exact .inl isEnd
  · simp only [Bool.and_eq_true, List.all_eq_true, List.mem_filter, bne_iff_ne, Bool.or_eq_true,
      List.contains_iff_mem, Bool.not_eq_true', List.isEmpty_eq_false_iff_exists_mem] at others
    obtain ⟨⟨successor, edge, different⟩, others⟩ := others
    refine .inr ⟨⟨successor, edge, different⟩, fun other edge different => ?_⟩
    exact (others other ⟨edge, different⟩).elim (ends other) id

theorem prefix_collectDoomed (blocks known : List Ref) :
    known <+: collectDoomed store blocks known := by
  induction blocks generalizing known with
  | nil => exact List.prefix_rfl
  | cons block rest induction =>
      unfold collectDoomed
      rw [List.foldl_cons]
      split
      · exact induction known
      · exact (List.prefix_append known [block]).trans (induction _)

theorem leadsNowhere_mono
    {known larger : List Ref}
    (more : known ⊆ larger)
    (nowhere : leadsNowhere store known block = true) :
    leadsNowhere store larger block = true := by
  unfold leadsNowhere at nowhere ⊢
  refine Bool.or_eq_true_iff.2 ((Bool.or_eq_true_iff.1 nowhere).imp_right fun others => ?_)
  simp only [Bool.and_eq_true, List.all_eq_true, Bool.or_eq_true, List.contains_iff_mem] at others ⊢
  exact others.imp_right fun all other member => (all other member).imp_left fun known => more known

theorem mem_collectDoomed
    {blocks : List Ref}
    (known : List Ref)
    (member : block ∈ blocks)
    (nowhere : leadsNowhere store known block = true) :
    block ∈ collectDoomed store blocks known := by
  induction blocks generalizing known with
  | nil => cases member
  | cons first rest induction =>
      unfold collectDoomed
      rw [List.foldl_cons]
      rcases List.mem_cons.1 member with rfl | later
      · refine (prefix_collectDoomed rest _).subset ?_
        by_cases listed : block ∈ known
        · simp [listed]
        · simp [listed, nowhere]
      · refine induction _ later (leadsNowhere_mono ?_ nowhere)
        split
        · exact List.Subset.refl known
        · exact List.subset_append_left known [first]

theorem subset_doomedWithin (blocks : List Ref) (rounds : Nat) (known : List Ref) :
    known ⊆ doomedWithin store blocks rounds known := by
  induction rounds generalizing known with
  | zero => exact fun _ member => member
  | succ rounds induction =>
      unfold doomedWithin
      dsimp only
      split
      · exact fun _ member => member
      · exact fun _ member => induction _ ((prefix_collectDoomed blocks known).subset member)

/-- The search finds every block that leads nowhere. -/
theorem mem_doomed
    (member : block ∈ store.postOrder function)
    (nowhere : store.LeadsNowhere block) :
    block ∈ doomed store function := by
  have found := mem_collectDoomed [] member (leadsNowhere_of [] nowhere)
  unfold doomed doomedWithin
  dsimp only
  split
  · rename_i none
    rw [List.length_eq_zero_iff.1 none] at found
    exact found
  · exact subset_doomedWithin _ _ _ found

/-- What holds of a block that leads nowhere while it holds of those found so far holds of all. -/
theorem forall_mem_doomedWithin
    {blocks : List Ref}
    {holds : Ref → Prop}
    (step : ∀ known block, (∀ other ∈ known, holds other) → block ∈ blocks →
      leadsNowhere store known block = true → holds block)
    (rounds : Nat) :
    ∀ block ∈ doomedWithin store blocks rounds [], holds block := by
  have pass : ∀ part known, part ⊆ blocks → (∀ other ∈ known, holds other) →
      ∀ other ∈ collectDoomed store part known, holds other := by
    intro part
    induction part with
    | nil => exact fun known _ all => all
    | cons block rest induction =>
        intro known listed all
        unfold collectDoomed
        rw [List.foldl_cons]
        refine induction _ (fun _ member => listed (List.mem_cons_of_mem _ member)) ?_
        split
        · exact all
        · rename_i new
          simp only [Bool.or_eq_true, Bool.not_eq_true', not_or, Bool.not_eq_false] at new
          intro other member
          rcases List.mem_append.1 member with old | added
          · exact all other old
          · rw [List.mem_singleton.1 added]
            exact step known block all (listed List.mem_cons_self) new.2
  have passes : ∀ rounds known, (∀ other ∈ known, holds other) →
      ∀ other ∈ doomedWithin store blocks rounds known, holds other := by
    intro rounds
    induction rounds with
    | zero => exact fun known all => all
    | succ rounds induction =>
        intro known all
        unfold doomedWithin
        dsimp only
        split
        · exact all
        · exact induction _ (pass _ known (fun _ member => member) all)
  exact passes rounds [] (by simp)

theorem forall_mem_doomed
    {holds : Ref → Prop}
    (step : ∀ known block, (∀ other ∈ known, holds other) → block ∈ store.postOrder function →
      leadsNowhere store known block = true → holds block) :
    ∀ block ∈ doomed store function, holds block :=
  forall_mem_doomedWithin step _

theorem mem_postOrder_iff_reached (coherent : store.Coherent) :
    block ∈ store.postOrder function ↔ store.Reached function block := by
  rw [← mem_reversePostOrder_iff_reached coherent]
  exact List.mem_reverse.symm

theorem advances_neutralizeDoomed
    (records : report.Records store)
    (gives : Gives (neutralizeDoomed function report) store report' left) :
    report.Advances store report' left := by
  refine advancing_neutralize.foldlM records ?_ (gives_see_bind_iff.1 gives)
  refine forall_mem_doomed fun known block _ listed _ => ?_
  exact ((mem_postOrder_iff_reached records.coherent).1 listed).isBlock records.coherent

/-- When no block is neutralized, the blocks that lead nowhere are neutral. -/
theorem isNeutral_of_neutralizeDoomed
    (records : report.Records store)
    (gives : Gives (neutralizeDoomed function report) store report store)
    (reached : store.Reached function block)
    (nowhere : store.LeadsNowhere block) :
    store.IsNeutral block := by
  have blocks : ∀ other ∈ doomed store function, store.isBlock other = true :=
    forall_mem_doomed fun known other _ listed _ =>
      ((mem_postOrder_iff_reached records.coherent).1 listed).isBlock records.coherent
  have listed := mem_doomed ((mem_postOrder_iff_reached records.coherent).2 reached) nowhere
  exact isNeutral_of_gives records <|
    advancing_neutralize.gives_of_quiet records blocks (gives_see_bind_iff.1 gives) rfl block listed

/-- When the blocks that lead nowhere are neutral, no block is neutralized. -/
theorem gives_neutralizeDoomed
    (report : Elimination)
    (coherent : store.Coherent)
    (neutral : ∀ {block}, store.Reached function block → store.LeadsNowhere block →
      store.IsNeutral block) :
    Gives (neutralizeDoomed function report) store report store := by
  have all : ∀ block ∈ doomed store function, store.IsNeutral block := by
    refine forall_mem_doomed fun known block found listed nowhere => ?_
    refine neutral ((mem_postOrder_iff_reached coherent).1 listed) ?_
    exact (leadsNowhere_iff fun other member => (found other member).endsUnreachable).1 nowhere
  exact gives_see_bind_iff.2 <| gives_foldlM_of_still fun block member =>
    gives_neutralize_of_isNeutral report (all block member)

/-! ## Blocks that are never entered -/

theorem mem_unreachableUsers_iff {reachable : List Ref} {source : Ref} :
    block ∈ unreachableUsers store function reachable source ↔
      ∃ ref ∈ store.instructions source, ∃ use ∈ store.usesOf ref,
        store.blockOf? use.user = some block ∧ store.blockFunction? block = some function ∧
          block ∉ reachable := by
  simp [unreachableUsers, Option.filter_eq_some_iff]

/-- What is found around some blocks, provided that all of their choices can be made. -/
theorem mem_deadAround
    {reachable blocks dead : List Ref}
    (gives : Gives (deadAround function reachable blocks) store dead left) :
    left = store ∧
      (∀ source ∈ blocks, ∃ targets, Gives (excludedTargets source) store targets store) ∧
      ∀ block, block ∈ dead ↔ ∃ source ∈ blocks,
        block ∈ unreachableUsers store function reachable source ∨
          ∃ targets, Gives (excludedTargets source) store targets store ∧ block ∈ targets := by
  induction blocks generalizing dead with
  | nil =>
      obtain ⟨rfl, rfl⟩ := gives_pure_iff.1 gives
      exact ⟨rfl, by simp, by simp⟩
  | cons first rest induction =>
      replace gives := gives_see_bind_iff.1 gives
      obtain ⟨targets, between, excluded, gives⟩ := gives_bind_iff.1 gives
      obtain ⟨same, -⟩ := gives_excludedTargets_iff.1 excluded
      rw [same] at gives excluded
      obtain ⟨others, last, later, gives⟩ := gives_bind_iff.1 gives
      obtain ⟨rfl, rfl⟩ := gives_pure_iff.1 gives
      obtain ⟨rfl, chosen, members⟩ := induction later
      refine ⟨rfl, fun source member => ?_, fun block => ?_⟩
      · rcases List.mem_cons.1 member with rfl | inRest
        · exact ⟨targets, excluded⟩
        · exact chosen source inRest
      · have here : (∃ targets, Gives (excludedTargets first) left targets left ∧
            block ∈ targets) ↔ block ∈ targets := by
          constructor
          · rintro ⟨targets', excluded', member⟩
            cases excluded.symm.trans excluded'
            exact member
          · exact fun member => ⟨targets, excluded, member⟩
        simp only [List.mem_append, members, List.exists_mem_cons_iff, here]

theorem gives_deadAround
    {reachable blocks : List Ref}
    (chosen : ∀ source ∈ blocks, ∃ targets, Gives (excludedTargets source) store targets store) :
    ∃ dead, Gives (deadAround function reachable blocks) store dead store := by
  induction blocks with
  | nil => exact ⟨[], gives_pure_iff.2 ⟨rfl, rfl⟩⟩
  | cons first rest induction =>
      obtain ⟨targets, excluded⟩ := chosen first List.mem_cons_self
      obtain ⟨others, later⟩ := induction fun source member =>
        chosen source (List.mem_cons_of_mem _ member)
      exact ⟨_, gives_see_bind_iff.2 (gives_bind_iff.2 ⟨targets, store, excluded,
        gives_bind_iff.2 ⟨others, store, later, gives_pure_iff.2 ⟨rfl, rfl⟩⟩⟩)⟩

/-- The blocks that a round neutralizes are neutral. -/
structure CutDown (store : Store) (function : Ref) : Prop where
  nowhere : ∀ {block}, store.Reached function block → store.LeadsNowhere block →
    store.IsNeutral block
  drawing : ∀ {block}, store.DrawsOnReached function block → store.IsNeutral block
  excluded : ∀ {source}, store.Reached function source →
    ∃ targets, Gives (excludedTargets source) store targets store ∧
      ∀ target ∈ targets, store.IsNeutral target

theorem CutDown.tidies
    (cut : CutDown store function)
    (coherent : store.Coherent)
    (tidies : store.Tidies left) :
    CutDown left function where
  nowhere := fun reached nowhere =>
    tidies.isNeutral.2 (cut.nowhere (tidies.reached.1 reached) (tidies.leadsNowhere.1 nowhere))
  drawing := fun draws => tidies.isNeutral.2 (cut.drawing (tidies.drawsOnReached coherent draws))
  excluded := by
    intro source reached
    obtain ⟨targets, excluded, neutral⟩ := cut.excluded (tidies.reached.1 reached)
    obtain ⟨targets', excluded', fewer⟩ :=
      gives_excludedTargets_of_tidies coherent tidies excluded
    exact ⟨targets', excluded', fun target member =>
      tidies.isNeutral.2 (neutral target (fewer target member))⟩

theorem isBlock_of_mem_deadAround
    (coherent : store.Coherent)
    {reachable blocks dead : List Ref}
    (gives : Gives (deadAround function reachable blocks) store dead left) :
    ∀ block ∈ dead, store.isBlock block = true := by
  intro block member
  obtain ⟨source, -, user | ⟨targets, excluded, target⟩⟩ :=
    ((mem_deadAround gives).2.2 block).1 member
  · obtain ⟨_, -, _, -, -, owner, -⟩ := mem_unreachableUsers_iff.1 user
    rw [isBlock_iff_blockFunction?, owner]
    rfl
  · obtain ⟨-, choice, -, rfl⟩ := gives_excludedTargets_iff.1 excluded
    cases choice with
    | none => cases target
    | some choice =>
        obtain ⟨-, -, -, entered⟩ := mem_passedOver_iff.1 target
        exact coherent.isBlock_of_mem_predecessors (by rw [entered]; exact List.mem_cons_self)

theorem advances_neutralizeDead
    (records : report.Records store)
    (gives : Gives (neutralizeDead function report) store report' left) :
    report.Advances store report' left := by
  unfold neutralizeDead at gives
  replace gives := gives_see_bind_iff.1 gives
  obtain ⟨dead, between, around, gives⟩ := gives_bind_iff.1 gives
  obtain ⟨same, -⟩ := mem_deadAround around
  rw [same] at gives
  refine advancing_neutralize.foldlM records (fun block member => ?_) gives
  exact isBlock_of_mem_deadAround records.coherent around block (mem_distinct.1 member)

/-- When no block is neutralized, all blocks to be neutralized are neutral. -/
theorem cutDown_of_quiet
    (records : report.Records store)
    (doomedGives : Gives (neutralizeDoomed function report) store report store)
    (deadGives : Gives (neutralizeDead function report) store report store) :
    CutDown store function := by
  unfold neutralizeDead at deadGives
  replace deadGives := gives_see_bind_iff.1 deadGives
  obtain ⟨dead, between, around, gives⟩ := gives_bind_iff.1 deadGives
  obtain ⟨same, chosen, members⟩ := mem_deadAround around
  rw [same] at gives
  have neutral : ∀ block ∈ dead, store.IsNeutral block := by
    intro block member
    refine isNeutral_of_gives records (advancing_neutralize.gives_of_quiet records
      (fun other listed => ?_) gives rfl block (mem_distinct.2 member))
    exact isBlock_of_mem_deadAround records.coherent around other (mem_distinct.1 listed)
  have listed : ∀ {source}, source ∈ store.reversePostOrder function ↔
      store.Reached function source := mem_reversePostOrder_iff_reached records.coherent
  refine
    { nowhere := isNeutral_of_neutralizeDoomed records doomedGives
      drawing := ?_
      excluded := fun {source} reached => ?_ }
  · rintro block ⟨owner, unreached, source, ref, use, reached, member, used, linked⟩
    refine neutral block ((members block).2 ⟨source, listed.2 reached, .inl ?_⟩)
    exact mem_unreachableUsers_iff.2
      ⟨ref, member, use, used, linked, owner, fun reached => unreached (listed.1 reached)⟩
  · obtain ⟨targets, excluded⟩ := chosen source (listed.2 reached)
    refine ⟨targets, excluded, fun target member => neutral target ((members target).2 ?_)⟩
    exact ⟨source, listed.2 reached, .inr ⟨targets, excluded, member⟩⟩

/-- When all blocks to be neutralized are neutral, no block is neutralized. -/
theorem CutDown.gives_neutralizeDead
    (cut : CutDown store function)
    (coherent : store.Coherent)
    (report : Elimination) :
    Gives (neutralizeDead function report) store report store := by
  have listed : ∀ {source}, source ∈ store.reversePostOrder function ↔
      store.Reached function source := mem_reversePostOrder_iff_reached coherent
  have chosen : ∀ source ∈ store.reversePostOrder function,
      ∃ targets, Gives (excludedTargets source) store targets store := by
    intro source member
    obtain ⟨targets, excluded, -⟩ := cut.excluded (listed.1 member)
    exact ⟨targets, excluded⟩
  obtain ⟨dead, around⟩ : ∃ dead, Gives (deadAround function (store.reversePostOrder function)
      (store.reversePostOrder function)) store dead store :=
    gives_deadAround chosen
  refine gives_see_bind_iff.2 (gives_bind_iff.2 ⟨dead, store, around, gives_foldlM_of_still ?_⟩)
  intro block member
  refine gives_neutralize_of_isNeutral report ?_
  obtain ⟨source, reached, user | ⟨targets, excluded, target⟩⟩ :=
    ((mem_deadAround around).2.2 block).1 (mem_distinct.1 member)
  · obtain ⟨ref, inSource, use, used, linked, owner, unlisted⟩ := mem_unreachableUsers_iff.1 user
    exact cut.drawing ⟨owner, fun reached => unlisted (listed.2 reached), source, ref, use,
      listed.1 reached, inSource, used, linked⟩
  · obtain ⟨targets', excluded', neutral⟩ := cut.excluded (listed.1 reached)
    cases excluded.symm.trans excluded'
    exact neutral block target

end Pass

end ShaderIR
